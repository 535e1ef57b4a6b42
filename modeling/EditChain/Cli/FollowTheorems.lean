import EditChain.Cli.Follow
import EditChain.Engine.HistoryTheorems

/-!
# What a subscriber sees

A subscriber that remembers the entries of the snapshot and of every added or changed operation, and
forgets what is removed, has at any time an entry for exactly the accepted operations, as a rebuild
would give them.
-/

namespace EditChain.Cli.View

open Engine (EncodedRecord HistoryEntry Lookup)

variable {Op Ref : Type} [Schema Op] {view : View Op Ref}

/-! ## Lines -/

/-- Where the entries are those of one view, they take the place of what was known. -/
lemma foldl_remember (shown : View Op Ref) {entries : List (HistoryEntry Op Ref)}
    (h : ∀ entry ∈ entries, shown (Schema.id entry.operation) = some entry) (id : OpId) :
    entries.foldl remember view id
      = if id ∈ entries.map fun entry => Schema.id entry.operation then shown id else view id := by
  induction entries generalizing view with
  | nil => rfl
  | cons entry rest ih =>
    rw [List.foldl_cons, ih fun other hother => h other (List.mem_cons_of_mem _ hother),
      List.map_cons]
    by_cases hrest : id ∈ rest.map fun entry => Schema.id entry.operation
    · rw [if_pos hrest, if_pos (List.mem_cons_of_mem _ hrest)]
    · rw [if_neg hrest]
      unfold remember
      by_cases hid : id = Schema.id entry.operation
      · rw [hid, Function.update_self, if_pos List.mem_cons_self, h entry List.mem_cons_self]
      · rw [Function.update_of_ne hid, if_neg]
        exact fun hmem => (List.mem_cons.mp hmem).elim hid hrest

omit [Schema Op] in
lemma foldl_forget (removed : List (OpId × List EncodedRecord)) (id : OpId) :
    removed.foldl forget view id = if id ∈ removed.map Prod.fst then none else view id := by
  induction removed generalizing view with
  | nil => rfl
  | cons first rest ih =>
    rw [List.foldl_cons, ih, List.map_cons]
    by_cases hrest : id ∈ rest.map Prod.fst
    · rw [if_pos hrest, if_pos (List.mem_cons_of_mem _ hrest)]
    · rw [if_neg hrest]
      unfold forget
      by_cases hid : id = first.1
      · rw [hid, Function.update_self, if_pos List.mem_cons_self]
      · rw [Function.update_of_ne hid, if_neg]
        exact fun hmem => (List.mem_cons.mp hmem).elim hid hrest

omit [Schema Op] in
lemma ofLines_append [Schema Op] (lines more : List (FollowEvent Op Ref)) :
    ofLines (lines ++ more) = more.foldl read (ofLines lines) := List.foldl_append

end EditChain.Cli.View

namespace EditChain.Index

open Core Fallible Store Cli
open Engine (EncodedRecord HistoryEntry Lookup QueryPage)
open Std (ExtTreeMap ExtTreeSet TransOrd LawfulEqOrd)

variable {Op Ref Key : Type} [Schema Op] [Checksum] [Blake3] [IndexSchema Op Ref Key]
  [DecidableEq Key] [Ord Ref] [TransOrd Ref] [LawfulEqOrd Ref] [DecidableEq Ref]

/-! ## Entries of an index -/

namespace ChainQueries

variable {queries queries' : ChainQueries Op Ref Key} {d d' : Directory}
  {truth truth' : Ref → ContentState}

omit [LawfulEqOrd Ref] [DecidableEq Ref] in
/-- The entry of an accepted operation. -/
lemma entryAt_of_accepted (h : queries.index.state.Mirrors d truth) {id : OpId}
    {location : OpRecordLocation} {op : Op}
    (haccepted : acceptedBy queries.index.state.tail.chain id = some (location, op)) :
    ∃ encoded content, readEncodedAt d location = .ok encoded
      ∧ queries.index.state.contentOf id = .ok (some content)
      ∧ queries.entryAt d id = some ⟨op, ⟨id, Blake3.hash encoded⟩, content⟩ := by
  have hget : queries.index.get id = some op := by
    show queries.index.state.tail.chain.get id = some op
    rw [get_eq_acceptedBy, haccepted]
    rfl
  obtain ⟨-, encoded, content, -, hvariants, hfound⟩ := operation_of_get h hget
  refine ⟨encoded, content, ?_, ?_, entryAt_eq_some.mpr hfound⟩
  · unfold recordVariants ChainIndex.recordVariants at hvariants
    rw [h.tidy.recordLocations_eq (acceptedBy_eq_some.mp haccepted), List.mapM_cons,
      List.mapM_nil] at hvariants
    cases hread : readEncodedAt d location with
    | error error =>
      rw [hread] at hvariants
      cases hvariants
    | ok bytes =>
      rw [hread] at hvariants
      have hbytes : [bytes] = [encoded] :=
        congrArg (List.map EncodedRecord.encoded) (Except.ok.inj hvariants)
      rw [List.singleton_injective hbytes]
  · unfold operation at hfound
    rw [hvariants, hget] at hfound
    obtain ⟨variants, hsame, hfound⟩ := bind_eq_ok.mp hfound
    cases hsame
    obtain ⟨listed, hlisted, hfound⟩ := bind_eq_ok.mp hfound
    obtain ⟨found, hsome, hfound⟩ := bind_eq_ok.mp hfound
    cases hfound
    cases listed with
    | none => cases hsome
    | some listed =>
      cases hsome
      exact hlisted

omit [LawfulEqOrd Ref] [DecidableEq Ref] in
lemma entryAt_of_not_accepted (h : queries.index.state.Mirrors d truth) {id : OpId}
    (hnone : acceptedBy queries.index.state.tail.chain id = none) :
    queries.entryAt d id = none := by
  obtain ⟨result, hresult⟩ := operation_total h id
  refine entryAt_eq_none hresult fun entry hentry => ?_
  have hget : queries.index.get id = some entry.operation :=
    (get_of_operation hresult).mpr ⟨entry, hentry, rfl⟩
  have hget' : queries.index.state.tail.chain.get id = some entry.operation := hget
  rw [get_eq_acceptedBy, hnone] at hget'
  cases hget'

omit [LawfulEqOrd Ref] [DecidableEq Ref] in
/-- What is accepted at the same place with the same content has the same entry. -/
lemma entryAt_congr (h : queries.index.state.Mirrors d truth)
    (h' : queries'.index.state.Mirrors d' truth') (hgrows : d.Grows d') {id : OpId}
    (haccepted : acceptedBy queries'.index.state.tail.chain id
      = acceptedBy queries.index.state.tail.chain id)
    (hcontent : (acceptedBy queries.index.state.tail.chain id).isSome →
      queries'.index.state.contentOf id = queries.index.state.contentOf id) :
    queries'.entryAt d' id = queries.entryAt d id := by
  cases hsome : acceptedBy queries.index.state.tail.chain id with
  | none => rw [entryAt_of_not_accepted h hsome, entryAt_of_not_accepted h' (haccepted.trans hsome)]
  | some found =>
    obtain ⟨location, op⟩ := found
    obtain ⟨encoded, content, hread, hlisted, hentry⟩ := entryAt_of_accepted h hsome
    obtain ⟨encoded', content', hread', hlisted', hentry'⟩ :=
      entryAt_of_accepted h' (haccepted.trans hsome)
    rw [readEncodedAt_grows hgrows hread] at hread'
    rw [hcontent (by rw [hsome]; rfl), hlisted] at hlisted'
    cases hread'
    cases hlisted'
    rw [hentry, hentry']

omit [LawfulEqOrd Ref] [DecidableEq Ref] in
/-- Every entry has the identity that it was looked up by. -/
lemma id_of_entryAt (h : queries.index.state.Mirrors d truth) {id : OpId}
    {entry : HistoryEntry Op Ref} (hentry : queries.entryAt d id = some entry) :
    Schema.id entry.operation = id :=
  (operation_of_get h ((get_of_operation (entryAt_eq_some.mp hentry)).mpr ⟨entry, rfl, rfl⟩)).1

omit [Schema Op] [DecidableEq Key] [LawfulEqOrd Ref] [DecidableEq Ref] in
/-- Several lookups. -/
lemma mapM_operation (h : ∀ id, ∃ result, queries.operation d id = .ok result) (ids : List OpId) :
    ∃ results, ids.mapM (queries.operation d) = .ok results
      ∧ View.found results = ids.filterMap (queries.entryAt d) := by
  induction ids with
  | nil => exact ⟨[], rfl, rfl⟩
  | cons id rest ih =>
    obtain ⟨results, hresults, hfound⟩ := ih
    obtain ⟨result, hresult⟩ := h id
    refine ⟨result :: results, ?_, ?_⟩
    · rw [List.mapM_cons, hresult, hresults]
      rfl
    · cases result with
      | found entry =>
        rw [View.found, hfound, List.filterMap_cons_some (entryAt_eq_some.mpr hresult)]
      | missing =>
        rw [View.found, hfound, List.filterMap_cons_none
          (entryAt_eq_none hresult fun entry hentry => by cases hentry)]
      | conflicted variants =>
        rw [View.found, hfound, List.filterMap_cons_none
          (entryAt_eq_none hresult fun entry hentry => by cases hentry)]

omit [LawfulEqOrd Ref] [DecidableEq Ref] in
lemma mapM_variantsOf (h : queries.index.state.Mirrors d truth) (ids : List OpId) :
    ∃ removed, ids.mapM (Follow.variantsOf queries d) = .ok removed
      ∧ removed.map Prod.fst = ids := by
  induction ids with
  | nil => exact ⟨[], rfl, rfl⟩
  | cons id rest ih =>
    obtain ⟨removed, hremoved, hids⟩ := ih
    obtain ⟨variants, hvariants⟩ := recordVariants_total h id
    refine ⟨(id, variants) :: removed, ?_, by rw [List.map_cons, hids]⟩
    have hone : Follow.variantsOf queries d id = .ok (id, variants) := by
      unfold Follow.variantsOf
      rw [hvariants]
      rfl
    rw [List.mapM_cons, hone, hremoved]
    rfl

end ChainQueries

/-! ## One refresh -/

namespace State

variable {d : Directory} {state state' : State Op Ref Key} {answers answers' : Answers Ref}

omit [Blake3] in
/-- What a refresh neither adds nor removes is accepted as before. -/
lemma Follows.advance_kept {delta : IndexDelta} (h : state.Follows d)
    (hexec : (state.advance answering d).exec answers = (.ok (state', delta), answers')) {id : OpId}
    (hadded : id ∉ delta.added) (hremoved : id ∉ delta.removed) :
    acceptedBy state'.tail.chain id = acceptedBy state.tail.chain id := by
  unfold State.advance at hexec
  obtain ⟨⟨records, tail⟩, s₁, hdrained, hexec⟩ := exec_bind_eq_ok.mp hexec
  obtain ⟨hdrained', rfl⟩ := Prod.mk.inj hdrained
  obtain ⟨⟨next, changed, reads⟩, s₂, happly, hexec⟩ := exec_bind_eq_ok.mp hexec
  obtain ⟨changes, s₃, hchanges, hexec⟩ := exec_bind_eq_ok.mp hexec
  obtain ⟨hchanges', rfl⟩ := Prod.mk.inj hchanges
  cases hexec
  have hdrain := Tail.drained_eq_ok hdrained'
  obtain ⟨htracks, -⟩ := Tail.drain_tracks hdrain
  have hcopy : ({ state with tail := tail } : State Op Ref Key).Derived
      (acceptedBy state.tail.chain) := h.derived.of_eq rfl rfl
  obtain ⟨-, -, -, htail⟩ := hcopy.apply h.backed htracks happly
  have hsame : next.tail = tail := htail
  show acceptedBy next.tail.chain id = _
  rw [hsame]
  exact acceptedBy_of_kept htracks (fun hin => hadded (ExtTreeMap.mem_keys.mpr hin)) hremoved

end State
end EditChain.Index

namespace EditChain.Cli.Follow

open Core Fallible Store Index
open Engine (EncodedRecord HistoryEntry Lookup QueryPage)
open Std (ExtTreeMap ExtTreeSet TransOrd LawfulEqOrd)

variable {Op Ref Key : Type} [Schema Op] [Checksum] [Blake3] [IndexSchema Op Ref Key]
  [DecidableEq Key] [Ord Ref] [TransOrd Ref] [LawfulEqOrd Ref] [DecidableEq Ref]
  {d : Directory} {truth : Ref → ContentState} {queries : ChainQueries Op Ref Key}

/-! ## What is printed -/

omit [LawfulEqOrd Ref] [DecidableEq Ref] in
/-- The snapshot has the entries of the index. -/
lemma initial_spec (h : queries.index.state.Mirrors d truth) :
    ∃ lines, initial queries d = .ok lines
      ∧ ∀ id, View.ofLines lines id = queries.entryAt d id := by
  have htotal := ChainQueries.operation_total h
  have hsorted : (queries.candidates none).Pairwise (· < ·) :=
    ChainQueries.pairwise_candidates none
  have hspec := @Paging.pages_spec _ _ _ _ _ _ _ hsorted (fun _ => 1000) (fun _ => by omega)
    ((queries.candidates none).length + 1) 0 none
  rw [Paging.beyond_none] at hspec
  obtain ⟨before, last, hpages, -, -, hall⟩ := hspec (Nat.lt_succ_self _)
  unfold initial
  rw [ChainQueries.followHistory_eq htotal none (fun _ => ⟨by omega, le_refl 1000⟩), hpages]
  refine ⟨_, rfl, fun id => ?_⟩
  -- one page after the other is all of the candidates at once
  have hpaged : ∀ (found : List (List OpId × Option OpId)) (view : View Op Ref),
      ((found.map (queries.entriesPage d)).map FollowEvent.snapshot).foldl View.read view
        = ((found.flatMap Prod.fst).filterMap (queries.entryAt d)).foldl View.remember view := by
    intro found
    induction found with
    | nil => exact fun _ => rfl
    | cons page rest ih =>
      intro view
      rw [List.flatMap_cons, List.filterMap_append, List.foldl_append, ← ih]
      rfl
  have hids := ChainQueries.ids_entries h fun id (hid : id ∈ queries.candidates none) => hid
  show ((List.map _ _).map FollowEvent.snapshot).foldl View.read _ id = _
  rw [hpaged, hall, View.foldl_remember (queries.entryAt d), hids]
  · split
    · rfl
    · next hnot =>
      refine (ChainQueries.entryAt_of_not_accepted h ?_).symm
      rw [ChainQueries.mem_candidates h] at hnot
      rw [Option.eq_none_iff_forall_ne_some]
      intro found hfound
      refine hnot ⟨found.2, ?_, fun fact hfact => by cases hfact⟩
      show queries.index.state.tail.chain.get id = _
      rw [get_eq_acceptedBy, hfound]
      rfl
  · intro entry hentry
    obtain ⟨other, -, hsome⟩ := List.mem_filterMap.mp hentry
    rw [ChainQueries.id_of_entryAt h hsome]
    exact hsome

omit [LawfulEqOrd Ref] [DecidableEq Ref] in
/-- The line for a refresh has the new entries of what is added or changed. -/
lemma change_spec (h : queries.index.state.Mirrors d truth) (delta : IndexDelta) :
    ∃ line, change queries d delta = .ok line ∧ ∀ (view : View Op Ref) id, view.read line id
      = if (id ∈ delta.added ∨ id ∈ delta.contentChanged) ∧ (queries.entryAt d id).isSome then
          queries.entryAt d id
        else if id ∈ delta.removed then none else view id := by
  have htotal := ChainQueries.operation_total h
  obtain ⟨added, hadded, hnew⟩ := ChainQueries.mapM_operation htotal delta.added
  obtain ⟨changed, hchanged, hother⟩ :=
    ChainQueries.mapM_operation htotal delta.contentChanged.toList
  obtain ⟨removed, hremoved, hgone⟩ := ChainQueries.mapM_variantsOf h delta.removed.toList
  refine ⟨.change added removed changed queries.index.state.tail.chain.stats, ?_, fun view id => ?_⟩
  · unfold change
    rw [hadded]
    refine bind_eq_ok.mpr ⟨added, rfl, ?_⟩
    rw [hchanged]
    refine bind_eq_ok.mpr ⟨changed, rfl, ?_⟩
    rw [hremoved]
    rfl
  · show (View.found added ++ View.found changed).foldl View.remember _ id = _
    rw [hnew, hother, ← List.filterMap_append, View.foldl_remember (queries.entryAt d),
      View.foldl_forget, hgone]
    · have hmem : (id ∈ (((delta.added ++ delta.contentChanged.toList).filterMap
            (queries.entryAt d)).map fun entry => Schema.id entry.operation))
          ↔ (id ∈ delta.added ∨ id ∈ delta.contentChanged)
            ∧ (queries.entryAt d id).isSome = true := by
        rw [List.mem_map]
        constructor
        · rintro ⟨entry, hentry, rfl⟩
          obtain ⟨other, hin, hsome⟩ := List.mem_filterMap.mp hentry
          rw [ChainQueries.id_of_entryAt h hsome, hsome]
          rw [List.mem_append, ExtTreeSet.mem_toList] at hin
          exact ⟨hin, rfl⟩
        · rintro ⟨hin, hsome⟩
          obtain ⟨entry, hentry⟩ := Option.isSome_iff_exists.mp hsome
          refine ⟨entry, List.mem_filterMap.mpr ⟨id, ?_, hentry⟩,
            ChainQueries.id_of_entryAt h hentry⟩
          rw [List.mem_append, ExtTreeSet.mem_toList]
          exact hin
      simp only [hmem, ExtTreeSet.mem_toList]
    · intro entry hentry
      obtain ⟨other, -, hsome⟩ := List.mem_filterMap.mp hentry
      rw [ChainQueries.id_of_entryAt h hsome]
      exact hsome

/-! ## Calls -/

variable {around : Surroundings (Answers Ref)} {session session' : Session Op Ref Key}
  {lines : List (FollowEvent Op Ref)}

omit [LawfulEqOrd Ref] [DecidableEq Ref] in
/-- The beginning of a subscription: a refresh, and the snapshot of what it leaves. -/
lemma begin_eq_ok (h : (begin answering false around).exec session = (.ok lines, session')) :
    ∃ delta pages, (ChainIndex.refresh answering around).exec session = (.ok delta, session')
      ∧ initial ⟨session'.index⟩ around.directory = .ok pages
      ∧ lines = pages ++ [.ready session'.index.state.tail.chain.stats] := by
  unfold begin at h
  obtain ⟨delta, middle, hrefresh, hrest⟩ := exec_bind_eq_ok.mp h
  rw [exec_bind_of_ok (exec_get middle)] at hrest
  obtain ⟨pages, last, hpages, hend⟩ := exec_bind_eq_ok.mp hrest
  obtain ⟨hinitial, rfl⟩ := Prod.mk.inj hpages
  cases hend
  exact ⟨delta, pages, hrefresh, hinitial, rfl⟩

/-- Nothing that a line could tell has changed. -/
def Quiet (delta : IndexDelta) : Prop :=
  delta.added = [] ∧ delta.removed = ∅ ∧ delta.contentChanged = ∅

omit [Checksum] [Blake3] in
lemma quiet_iff {delta : IndexDelta} : Quiet delta
    ↔ (delta.added.isEmpty && delta.removed.isEmpty && delta.contentChanged.isEmpty) = true := by
  unfold Quiet
  rw [Bool.and_eq_true, Bool.and_eq_true, List.isEmpty_iff, ExtTreeSet.isEmpty_iff,
    ExtTreeSet.isEmpty_iff, and_assoc]

omit [LawfulEqOrd Ref] [DecidableEq Ref] in
lemma poll_of_error {error : IoError}
    (h : (ChainIndex.refresh answering around).exec session = (.error error, session')) :
    (poll answering around).exec session = (.error error, session') := by
  unfold poll
  rw [exec_bind, h]

omit [LawfulEqOrd Ref] [DecidableEq Ref] in
lemma poll_of_quiet {delta : IndexDelta}
    (h : (ChainIndex.refresh answering around).exec session = (.ok delta, session'))
    (hquiet : Quiet delta) :
    (poll answering around).exec session = (.ok [], session') := by
  unfold poll
  rw [exec_bind_of_ok h, if_pos (quiet_iff.mp hquiet)]
  rfl

omit [LawfulEqOrd Ref] [DecidableEq Ref] in
lemma poll_of_news {delta : IndexDelta}
    (h : (ChainIndex.refresh answering around).exec session = (.ok delta, session'))
    (hnews : ¬ Quiet delta) {line : FollowEvent Op Ref}
    (hline : change ⟨session'.index⟩ around.directory delta = .ok line) :
    (poll answering around).exec session = (.ok [line], session') := by
  unfold poll
  rw [exec_bind_of_ok h, if_neg fun hquiet => hnews (quiet_iff.mpr hquiet),
    exec_bind_of_ok (exec_get session'), exec_bind, exec_lift, hline]
  rfl

variable {saved : Option (State Op Ref Key)} {index : ChainIndex Op Ref Key} {delta : IndexDelta}

/-- What a refresh leaves is what it found, with what is added or changed, and without what is
removed. -/
lemma refresh_shown (h : index.state.Mirrors around.directory truth)
    (hhonest : Honest truth around.blobs)
    (hrefresh : (ChainIndex.refresh answering around).exec ⟨saved, index⟩ = (.ok delta, session))
    (id : OpId) :
    (⟨session.index⟩ : ChainQueries Op Ref Key).entryAt around.directory id
      = if (id ∈ delta.added ∨ id ∈ delta.contentChanged)
          ∧ ((⟨session.index⟩ : ChainQueries Op Ref Key).entryAt around.directory id).isSome then
          (⟨session.index⟩ : ChainQueries Op Ref Key).entryAt around.directory id
        else if id ∈ delta.removed then none
        else (⟨index⟩ : ChainQueries Op Ref Key).entryAt around.directory id := by
  have hsame : around.directory.Grows around.directory := .of_segments rfl
  have hbefore : (⟨index⟩ : ChainQueries Op Ref Key).index.state.Mirrors around.directory truth := h
  rcases ChainIndex.refresh_cases hrefresh with
    ⟨-, hstate, hidle⟩ | ⟨next, found, s', hadvance, -, hcases⟩
  · -- nothing was read, and no content has changed
    obtain ⟨next, s', hadvance, hzero, hcontent⟩ := hidle delta rfl
    obtain ⟨-, -, hempty, -⟩ := h.follows.advance hadvance
    obtain ⟨hadded, hremoved⟩ := hempty hzero
    rw [hadded, hremoved, hcontent, if_neg (by simp), if_neg (by simp)]
    have hafter : (⟨session.index⟩ : ChainQueries Op Ref Key).index.state.Mirrors
        around.directory truth := by
      show session.index.state.Mirrors _ _
      rw [hstate]
      exact h
    refine ChainQueries.entryAt_congr hbefore hafter hsame ?_ fun _ => ?_
    · show acceptedBy session.index.state.tail.chain id = _
      rw [hstate]
    · show session.index.state.contentOf id = _
      rw [hstate]
  · rcases hcases with ⟨-, error, herror⟩ | ⟨hstate, hdelta⟩
    · cases herror
    · cases hdelta
      obtain ⟨hmirrors, -, -, -⟩ := h.advance hhonest hadvance
      obtain ⟨-, hreports, -, -⟩ := h.follows.advance hadvance
      have hafter : (⟨session.index⟩ : ChainQueries Op Ref Key).index.state.Mirrors
          around.directory truth := by
        show session.index.state.Mirrors _ _
        rw [hstate]
        exact hmirrors
      have haccepted : ∀ other, (acceptedBy session.index.state.tail.chain other).isSome
          ↔ other ∈ index.state.accepted ∧ other ∉ delta.removed ∨ other ∈ delta.added := by
        intro other
        rw [hstate, ← hmirrors.follows.derived.mem_accepted, hreports.accepted]
        rfl
      by_cases hnew : id ∈ delta.added ∨ id ∈ delta.contentChanged
      · have hsome : (acceptedBy session.index.state.tail.chain id).isSome := by
          rcases hnew with hadded | hcontent
          · exact (haccepted id).mpr (.inr hadded)
          · rw [hstate, ← hmirrors.follows.derived.mem_accepted]
            exact ((hreports.content id).mp hcontent).2.1
        obtain ⟨⟨location, op⟩, hfound⟩ := Option.isSome_iff_exists.mp hsome
        obtain ⟨encoded, content, -, -, hentry⟩ := ChainQueries.entryAt_of_accepted hafter hfound
        rw [if_pos ⟨hnew, by rw [hentry]; rfl⟩]
      · -- what is not printed is removed or as it was
        rw [if_neg fun hboth => hnew hboth.1]
        obtain ⟨hadded, hcontent⟩ := not_or.mp hnew
        by_cases hremoved : id ∈ delta.removed
        · rw [if_pos hremoved]
          refine ChainQueries.entryAt_of_not_accepted hafter ?_
          rw [← Option.not_isSome_iff_eq_none]
          show ¬ (acceptedBy session.index.state.tail.chain id).isSome
          rw [haccepted]
          exact fun hcase => hcase.elim (fun hkept => hkept.2 hremoved) hadded
        · rw [if_neg hremoved]
          have hkept := h.follows.advance_kept hadvance hadded hremoved
          refine ChainQueries.entryAt_congr hbefore hafter hsame ?_ fun hsome => ?_
          · show acceptedBy session.index.state.tail.chain id = _
            rw [hstate]
            exact hkept
          · show session.index.state.contentOf id = index.state.contentOf id
            rw [hstate]
            by_contra hne
            refine hcontent ((hreports.content id).mpr ⟨?_, ?_, fun heq => hne heq.symm⟩)
            · rw [h.follows.derived.mem_accepted]
              exact hsome
            · rw [hmirrors.follows.derived.mem_accepted, hkept]
              exact hsome

/-- A round prints what leads from one view to the next, and fails only where the refresh fails. -/
lemma poll_shown (h : index.state.Mirrors around.directory truth)
    (hhonest : Honest truth around.blobs)
    (hsaved : ∀ state, saved = some state → state.Mirrors around.directory truth)
    (hrefresh : (ChainIndex.refresh answering around).exec ⟨saved, index⟩ = (.ok delta, session))
    {view : View Op Ref} (hview : ∀ id,
      view id = (⟨index⟩ : ChainQueries Op Ref Key).entryAt around.directory id) :
    ∃ more, (poll answering around).exec ⟨saved, index⟩ = (.ok more, session)
      ∧ ∀ id, more.foldl View.read view id
        = (⟨session.index⟩ : ChainQueries Op Ref Key).entryAt around.directory id := by
  obtain ⟨hafter, -, -⟩ := ChainIndex.refresh_mirrors rfl hhonest h hsaved hrefresh
  have hshown := refresh_shown h hhonest hrefresh
  by_cases hquiet : Quiet delta
  · refine ⟨[], poll_of_quiet hrefresh hquiet, fun id => ?_⟩
    obtain ⟨hadded, hremoved, hcontent⟩ := hquiet
    rw [hshown id, hadded, hremoved, hcontent, if_neg (by simp), if_neg (by simp)]
    exact hview id
  · obtain ⟨line, hline, hread⟩ := change_spec
      (show (⟨session.index⟩ : ChainQueries Op Ref Key).index.state.Mirrors _ _ from hafter) delta
    refine ⟨[line], poll_of_news hrefresh hquiet hline, fun id => ?_⟩
    rw [List.foldl_cons, List.foldl_nil, hread, hview id]
    exact (hshown id).symm

/-! ## Subscriptions -/

omit [LawfulEqOrd Ref] [DecidableEq Ref] in
/-- A round that succeeds has refreshed the index. -/
lemma refresh_of_poll {more : List (FollowEvent Op Ref)}
    (h : (poll answering around).exec ⟨saved, index⟩ = (.ok more, session)) :
    ∃ delta, (ChainIndex.refresh answering around).exec ⟨saved, index⟩ = (.ok delta, session) := by
  unfold poll at h
  obtain ⟨delta, middle, hrefresh, hrest⟩ := exec_bind_eq_ok.mp h
  refine ⟨delta, ?_⟩
  rw [hrefresh]
  by_cases hquiet : Quiet delta
  · rw [if_pos (quiet_iff.mp hquiet)] at hrest
    cases hrest
    rfl
  · rw [if_neg fun hempty => hquiet (quiet_iff.mpr hempty), exec_bind_of_ok (exec_get middle)]
      at hrest
    obtain ⟨line, last, hline, hend⟩ := exec_bind_eq_ok.mp hrest
    obtain ⟨-, rfl⟩ := Prod.mk.inj hline
    cases hend
    rfl

/-- The lines that a subscription has printed since it began, while the chain grows between its
rounds and content arrives. -/
inductive Subscribed (first : Setting Op Ref Key) :
    Setting Op Ref Key → List (FollowEvent Op Ref) → Prop
  | begins {index : ChainIndex Op Ref Key} {session : Session Op Ref Key}
      {lines : List (FollowEvent Op Ref)} {answers : Answers Ref} (damage : Option IoError)
      (outcome : Publication) : Honest first.truth answers → first.handle = some index →
      (begin answering false ⟨first.directory, answers, damage, outcome⟩).exec
        ⟨first.saved, index⟩ = (.ok lines, session) →
      Subscribed first { first with saved := session.saved, handle := some session.index } lines
  | grows {w : Setting Op Ref Key} {lines : List (FollowEvent Op Ref)} {d : Directory}
      {truth : Ref → ContentState} : Subscribed first w lines → w.directory.Grows d →
      (∀ reference, w.truth reference = .available → truth reference = .available) →
      Subscribed first { w with directory := d, truth := truth } lines
  | polls {w : Setting Op Ref Key} {index : ChainIndex Op Ref Key} {session : Session Op Ref Key}
      {lines more : List (FollowEvent Op Ref)} {answers : Answers Ref} (damage : Option IoError)
      (outcome : Publication) : Subscribed first w lines → Honest w.truth answers →
      w.handle = some index →
      (poll answering ⟨w.directory, answers, damage, outcome⟩).exec ⟨w.saved, index⟩
        = (.ok more, session) →
      Subscribed first { w with saved := session.saved, handle := some session.index }
        (lines ++ more)

namespace Subscribed

variable {root : String} {first w : Setting Op Ref Key}

omit [LawfulEqOrd Ref] [DecidableEq Ref] in
/-- A subscription only does what can happen to an index. -/
lemma run (h : Subscribed first w lines) : Setting.Run root first w := by
  induction h with
  | begins damage outcome hhonest hindex hbegin =>
    obtain ⟨delta, pages, hrefresh, -, -⟩ := begin_eq_ok hbegin
    exact .single (.refresh damage outcome hhonest hindex hrefresh)
  | grows _ hgrows hstays ih => exact ih.tail (.grow hgrows hstays)
  | polls damage outcome _ hhonest hindex hpoll ih =>
    obtain ⟨delta, hrefresh⟩ := refresh_of_poll hpoll
    exact ih.tail (.refresh damage outcome hhonest hindex hrefresh)

/-- The subscriber has the entries of the index. -/
lemma shows (hsound : Setting.Sound first) (h : Subscribed first w lines)
    (hindex : w.handle = some index) (id : OpId) :
    View.ofLines lines id
      = (⟨index⟩ : ChainQueries Op Ref Key).entryAt w.directory id := by
  induction h generalizing index id with
  | begins damage outcome hhonest hhandle hbegin =>
    obtain ⟨delta, pages, hrefresh, hpages, rfl⟩ := begin_eq_ok hbegin
    cases hindex
    obtain ⟨hmirrors, -, -⟩ := ChainIndex.refresh_mirrors rfl hhonest (hsound.handle _ hhandle)
      hsound.saved hrefresh
    obtain ⟨shown, hshown, hview⟩ := initial_spec
      (show (⟨_⟩ : ChainQueries Op Ref Key).index.state.Mirrors _ _ from hmirrors)
    rw [hpages] at hshown
    cases hshown
    rw [View.ofLines_append]
    exact hview id
  -- what the index has accepted is found where it was
  | @grows v lines d truth hv hgrows hstays ih =>
    have hmirrors : (⟨index⟩ : ChainQueries Op Ref Key).index.state.Mirrors v.directory v.truth :=
      (Setting.Run.sound hsound (run hv : Setting.Run "" first v)).handle index hindex
    have hgrown : (⟨index⟩ : ChainQueries Op Ref Key).index.state.Mirrors d truth :=
      hmirrors.grows hgrows hstays
    rw [ih hindex id]
    exact (ChainQueries.entryAt_congr hmirrors hgrown hgrows rfl fun _ => rfl).symm
  | @polls v before session lines more answers damage outcome hv hhonest hhandle hpoll ih =>
    have hbefore := Setting.Run.sound hsound (run hv : Setting.Run "" first v)
    obtain ⟨delta, hrefresh⟩ := refresh_of_poll hpoll
    -- the round prints the difference to what the subscriber has
    obtain ⟨printed, hprinted, hview⟩ := poll_shown (hbefore.handle before hhandle) hhonest
      hbefore.saved hrefresh (ih hhandle)
    rw [hpoll] at hprinted
    cases hprinted
    cases hindex
    rw [View.ofLines_append]
    exact hview id

end Subscribed

/-! ## The theorem -/

/-- A rebuild has the entries of a state that is fresh. -/
lemma entryAt_of_fresh {answers rest : Answers Ref} {expected : State Op Ref Key}
    (hfresh : index.state.Fresh d truth) {root name : String} (hname : name ≠ "")
    (hhonest : Honest truth answers)
    (hbuild : (State.build answering root d name).exec answers = (.ok expected, rest))
    (id : OpId) :
    (⟨index⟩ : ChainQueries Op Ref Key).entryAt d id
      = (⟨⟨expected, false⟩⟩ : ChainQueries Op Ref Key).entryAt d id := by
  obtain ⟨hmirrors, -, k, hdense, hfinished⟩ := State.build_mirrors hname hhonest hbuild
  have hbuilt : (⟨⟨expected, false⟩⟩ : ChainQueries Op Ref Key).index.state.Mirrors d truth :=
    hmirrors
  have hindex : (⟨index⟩ : ChainQueries Op Ref Key).index.state.Mirrors d truth := hfresh.mirrors
  have hchain := (hfresh.finished k hdense).chain_eq hfinished
  have hmatches := hfresh.matches_build hname hhonest hbuild
  refine ChainQueries.entryAt_congr hbuilt hindex (.of_segments rfl) ?_ fun hsome => ?_
  · show acceptedBy index.state.tail.chain id = acceptedBy expected.tail.chain id
    rw [hchain]
  · obtain ⟨⟨location, op⟩, haccepted⟩ := Option.isSome_iff_exists.mp hsome
    have haccepted' : acceptedBy index.state.tail.chain id = some (location, op) := by
      rw [hchain]
      exact haccepted
    show index.state.contentOf id = expected.contentOf id
    refine (State.contentOf_eq_iff hfresh.mirrors.follows.derived hmirrors.follows.derived
      haccepted' haccepted).mpr fun reference _ => ?_
    unfold ContentIndex.status
    rw [hmatches.content.1]

/-- At any time of a subscription, its lines tell exactly what lookups find. A further round fails
only where the refresh fails, and after it the lines tell exactly what lookups find in an index that
is built anew: nothing accepted is missed and nothing removed is kept, whether an operation came
late, came before others, was taken back by a conflict, or had its content arrive later. -/
theorem subscription_shows_accepted {root : String} {d : Directory} {truth : Ref → ContentState}
    {first w : Setting Op Ref Key}
    (hrun : Setting.Run root { directory := d, truth := truth } first)
    {lines : List (FollowEvent Op Ref)} (hsubscribed : Subscribed first w lines)
    {index : ChainIndex Op Ref Key} (hindex : w.handle = some index) :
    (∀ id entry, View.ofLines lines id = some entry
      ↔ (⟨index⟩ : ChainQueries Op Ref Key).operation w.directory id = .ok (.found entry))
    ∧ ∀ (answers : Answers Ref) (damage : Option IoError) (outcome : Publication),
      Honest w.truth answers →
      (∀ error session, (poll answering ⟨w.directory, answers, damage, outcome⟩).exec
          ⟨w.saved, index⟩ = (.error error, session)
        ↔ (ChainIndex.refresh answering ⟨w.directory, answers, damage, outcome⟩).exec
          ⟨w.saved, index⟩ = (.error error, session))
      ∧ ∀ more session, (poll answering ⟨w.directory, answers, damage, outcome⟩).exec
          ⟨w.saved, index⟩ = (.ok more, session) →
        ∀ (present rest : Answers Ref) (nanos process counter : ℕ) (expected : State Op Ref Key),
          Honest w.truth present →
          (State.build answering root w.directory (generationName nanos process counter)).exec
            present = (.ok expected, rest) →
          ∀ id entry, View.ofLines (lines ++ more) id = some entry
            ↔ (⟨⟨expected, false⟩⟩ : ChainQueries Op Ref Key).operation w.directory id
              = .ok (.found entry) := by
  have hfirst : Setting.Sound first := Setting.Run.from_empty hrun
  have hsound := Setting.Run.sound hfirst (hsubscribed.run : Setting.Run root first w)
  have hshows := Subscribed.shows hfirst hsubscribed hindex
  refine ⟨fun id entry => ?_, fun answers damage outcome hhonest => ⟨fun error session => ?_, ?_⟩⟩
  · rw [hshows id]
    exact ChainQueries.entryAt_eq_some
  · refine ⟨fun hpoll => ?_, poll_of_error⟩
    generalize hrefresh : (ChainIndex.refresh answering
      ⟨w.directory, answers, damage, outcome⟩).exec ⟨w.saved, index⟩ = refreshed
    obtain ⟨result, after⟩ := refreshed
    cases result with
    | error other =>
      rw [poll_of_error hrefresh] at hpoll
      cases hpoll
      rfl
    | ok delta =>
      obtain ⟨more, hmore, -⟩ := poll_shown (hsound.handle index hindex) hhonest hsound.saved
        hrefresh hshows
      rw [hmore] at hpoll
      cases hpoll
  · intro more session hpoll present rest nanos process counter expected hpresent hbuild id entry
    obtain ⟨delta, hrefresh⟩ := refresh_of_poll hpoll
    obtain ⟨-, -, hfresh⟩ := ChainIndex.refresh_mirrors rfl hhonest (hsound.handle index hindex)
      hsound.saved hrefresh
    have hpolled := Subscribed.polls damage outcome hsubscribed hhonest hindex hpoll
    rw [Subscribed.shows hfirst hpolled rfl id, entryAt_of_fresh (hfresh delta rfl)
      (generationName_ne nanos process counter) hpresent hbuild id]
    exact ChainQueries.entryAt_eq_some

end EditChain.Cli.Follow

namespace EditChain.Cli.Follow

open Core Fallible Store Index
open Engine (HistoryEntry)
open Index.Setting (emptyOpened messageAround unarrived)
open Index.World (variantFrames grows_variantFrames)

section Witness

local instance subscribedSchema : Schema OpId := messageSchema
local instance subscribedChecksum : Checksum := crc32cChecksum
local instance subscribedDigests : Blake3 := messageDigests
local instance subscribedIndex : IndexSchema OpId ℕ ℕ := Index.Setting.rebuiltIndex

/-- The content arrives. -/
def arrived : Answers ℕ := fun _ => .ok .available

/-- A subscription to an empty chain. -/
def emptyBegun (index : ChainIndex OpId ℕ ℕ) :
    Except IoError (List (FollowEvent OpId ℕ)) × Session OpId ℕ ℕ :=
  (begin answering false (messageAround Directory.empty)).exec ⟨emptyOpened.2, index⟩

/-- A round with nothing in the way. -/
def roundOn (d : Directory) (answers : Answers ℕ) (session : Session OpId ℕ ℕ) :
    Except IoError (List (FollowEvent OpId ℕ)) × Session OpId ℕ ℕ :=
  (poll answering ⟨d, answers, none, .done⟩).exec session

/-- The rounds after the first message, after its content and after its other spelling. -/
def firstRound (begun : Session OpId ℕ ℕ) := roundOn (oneSegment messageFrame 2) unarrived begun

def secondRound (begun : Session OpId ℕ ℕ) :=
  roundOn (oneSegment messageFrame 2) arrived (firstRound begun).2

def thirdRound (begun : Session OpId ℕ ℕ) :=
  roundOn (oneSegment variantFrames 3) arrived (secondRound begun).2

/-- What the subscriber knows of the content of the message. -/
def contentTold (lines : List (FollowEvent OpId ℕ)) : Option (List (ℕ × ContentState)) :=
  (View.ofLines lines messageId).map HistoryEntry.content

set_option maxRecDepth 8192 in
/-- The subscriber is told of the message without content, with it, and then that it is gone. -/
lemma rounds_told : ∃ (opened : ChainIndex OpId ℕ ℕ) (lines : List (FollowEvent OpId ℕ))
    (begun : Session OpId ℕ ℕ) (first second third : List (FollowEvent OpId ℕ)),
    emptyOpened.1.toOption = some opened ∧ emptyBegun opened = (.ok lines, begun)
      ∧ firstRound begun = (.ok first, (firstRound begun).2)
      ∧ secondRound begun = (.ok second, (secondRound begun).2)
      ∧ thirdRound begun = (.ok third, (thirdRound begun).2)
      ∧ contentTold (lines ++ first) = some [(0, .missing)]
      ∧ contentTold (lines ++ first ++ second) = some [(0, .available)]
      ∧ contentTold (lines ++ first ++ second ++ third) = none := by
  have hcalls : (emptyOpened.1.toOption.any fun index =>
      (emptyBegun index).1.toOption.any fun lines =>
        (firstRound (emptyBegun index).2).1.toOption.any fun first =>
          (secondRound (emptyBegun index).2).1.toOption.any fun second =>
            (thirdRound (emptyBegun index).2).1.toOption.any fun third =>
              decide (contentTold (lines ++ first) = some [(0, .missing)])
                && decide (contentTold (lines ++ first ++ second) = some [(0, .available)])
                && decide (contentTold (lines ++ first ++ second ++ third) = none)) = true := by
    decide +kernel
  obtain ⟨opened, hopened, hcalls⟩ := (Option.any_eq_true _ _).mp hcalls
  obtain ⟨lines, hlines, hcalls⟩ := (Option.any_eq_true _ _).mp hcalls
  obtain ⟨first, hfirst, hcalls⟩ := (Option.any_eq_true _ _).mp hcalls
  obtain ⟨second, hsecond, hcalls⟩ := (Option.any_eq_true _ _).mp hcalls
  obtain ⟨third, hthird, htold⟩ := (Option.any_eq_true _ _).mp hcalls
  rw [Bool.and_eq_true, Bool.and_eq_true, decide_eq_true_iff, decide_eq_true_iff,
    decide_eq_true_iff] at htold
  exact ⟨opened, lines, (emptyBegun opened).2, first, second, third, hopened,
    Prod.ext (toOption_eq_some.mp hlines) rfl, Prod.ext (toOption_eq_some.mp hfirst) rfl,
    Prod.ext (toOption_eq_some.mp hsecond) rfl, Prod.ext (toOption_eq_some.mp hthird) rfl,
    htold.1.1, htold.1.2, htold.2⟩

set_option maxRecDepth 8192 in
/-- The index is built anew. -/
lemma variant_built : ∃ (expected : State OpId ℕ ℕ) (rest : Answers ℕ),
    (State.build answering "/chain" (oneSegment variantFrames 3) (generationName 4 5 6)).exec arrived
      = (.ok expected, rest) := by
  have hbuild : ((State.build answering "/chain" (oneSegment variantFrames 3)
      (generationName 4 5 6) : Fallible IoError (Answers ℕ) (State OpId ℕ ℕ)).exec
        arrived).1.toOption.isSome = true := by
    decide +kernel
  generalize (State.build answering "/chain" (oneSegment variantFrames 3)
    (generationName 4 5 6) : Fallible IoError (Answers ℕ) (State OpId ℕ ℕ)).exec arrived
      = built at hbuild ⊢
  obtain ⟨built, rest⟩ := built
  obtain ⟨expected, hexpected⟩ := Option.isSome_iff_exists.mp hbuild
  cases toOption_eq_some.mp hexpected
  exact ⟨expected, rest, rfl⟩

/-- A subscriber of an empty chain is told of the first message, of its content when that arrives,
and in the round after the other spelling of the message that it is gone, as an index that is built
anew has it. -/
theorem subscription_shows_accepted_conflict :
    ∃ (first w : Setting OpId ℕ ℕ) (index : ChainIndex OpId ℕ ℕ)
      (lines more : List (FollowEvent OpId ℕ)) (session : Session OpId ℕ ℕ)
      (expected : State OpId ℕ ℕ) (rest : Answers ℕ) (entry : Engine.HistoryEntry OpId ℕ),
      Setting.Run "/chain" { directory := Directory.empty, truth := fun _ => .missing } first
        ∧ Subscribed first w lines ∧ w.handle = some index
        ∧ View.ofLines lines messageId = some entry ∧ entry.content = [(0, .available)]
        ∧ (⟨index⟩ : ChainQueries OpId ℕ ℕ).operation w.directory messageId = .ok (.found entry)
        ∧ (poll answering ⟨w.directory, arrived, none, .done⟩).exec ⟨w.saved, index⟩
          = (.ok more, session)
        ∧ (State.build answering "/chain" w.directory (generationName 4 5 6)).exec arrived
          = (.ok expected, rest)
        ∧ View.ofLines (lines ++ more) messageId = none
        ∧ ∀ found, (⟨⟨expected, false⟩⟩ : ChainQueries OpId ℕ ℕ).operation w.directory messageId
          ≠ .ok (.found found) := by
  have hunarrived : Honest (fun _ => ContentState.missing) unarrived := .of_eq fun _ => rfl
  have harrived : Honest (fun _ => ContentState.available) arrived := .of_eq fun _ => rfl
  obtain ⟨opened, lines, begun, first, second, third, hopened, hbegin, hfirst, hsecond, hthird, -,
    htold, hgone⟩ := rounds_told
  obtain ⟨entry, hentry, hcontent⟩ := Option.map_eq_some_iff.mp htold
  obtain ⟨expected, rest, hbuilt⟩ := variant_built
  have hrun : Setting.Run "/chain" { directory := Directory.empty, truth := fun _ => .missing }
      (⟨Directory.empty, fun _ => .missing, emptyOpened.2, emptyOpened.1.toOption⟩
        : Setting OpId ℕ ℕ) :=
    .single (.openIndex 1 2 3 (messageAround Directory.empty) (messageAround Directory.empty) rfl
      rfl rfl hunarrived hunarrived rfl)
  have hbegun : Subscribed
      (⟨Directory.empty, fun _ => .missing, emptyOpened.2, emptyOpened.1.toOption⟩
        : Setting OpId ℕ ℕ)
      ⟨Directory.empty, fun _ => .missing, begun.saved, some begun.index⟩ lines :=
    .begins none .done hunarrived hopened hbegin
  have hpolled := (hbegun.grows (.of_empty _) fun _ h => h).polls none .done hunarrived rfl hfirst
  -- the content arrives without growth of the chain, and then the other spelling comes
  have harrives : Subscribed _ (⟨oneSegment messageFrame 2, fun _ => .available,
      (firstRound begun).2.saved, some (firstRound begun).2.index⟩ : Setting OpId ℕ ℕ)
      (lines ++ first) :=
    hpolled.grows (.of_segments rfl) fun _ _ => rfl
  have hsubscribed := (harrives.polls none .done harrived rfl hsecond).grows grows_variantFrames
    fun _ h => h
  obtain ⟨hshown, hpolls⟩ := subscription_shows_accepted hrun hsubscribed rfl
  obtain ⟨-, hnext⟩ := hpolls arrived none .done harrived
  have hnothing : View.ofLines (lines ++ first ++ second ++ third) messageId = none :=
    Option.map_eq_none_iff.mp hgone
  refine ⟨_, _, _, _, third, _, expected, rest, entry, hrun, hsubscribed, rfl, hentry, hcontent,
    (hshown messageId entry).mp hentry, hthird, hbuilt, hnothing, fun found hfound => ?_⟩
  have hstill := (hnext third _ hthird arrived rest 4 5 6 expected harrived hbuilt messageId
    found).mpr hfound
  rw [hnothing] at hstill
  cases hstill

end Witness
end EditChain.Cli.Follow
