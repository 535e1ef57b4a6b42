import EditChain.Index.FollowTheorems
import EditChain.Index.DrainTheorems

/-!
# Saved frontiers

A frontier that was saved can be resumed as long as the chain only grew: the segments it sealed are
as they were when it left them, and the one that it was reading is no shorter.
-/

namespace EditChain.Store

open Core Fallible UnitReader
open Std (ExtTreeMap)

variable {Op : Type} [Schema Op] [Checksum] {d d' : Directory} {root : String}

omit [Checksum] in
/-- A loop all of whose turns go on comes to its end. -/
lemma forIn_yields {ε α : Type} {f : α → Unit → Except ε (ForInStep Unit)} {xs : List α}
    (h : ∀ x ∈ xs, f x () = .ok (.yield ())) :
    (forIn xs () f : Except ε Unit) = .ok () := by
  induction xs with
  | nil => rfl
  | cons x xs ih =>
    rw [List.forIn_cons]
    refine bind_eq_ok.mpr ⟨ForInStep.yield (), h x List.mem_cons_self, ?_⟩
    exact ih fun other hother => h other (List.mem_cons_of_mem _ hother)

namespace Tail

variable {tail tail' : Tail (IndexedChain Op)} {delta delta' : ChainDelta Op}

/-- The frontier belongs to a chain, and the segments that it sealed did not change. -/
structure Anchored (root : String) (d : Directory) (tail : Tail (IndexedChain Op)) : Prop where
  root : tail.root = root
  stamps : ∀ (n : ℕ) stamp, tail.sealed[n]? = some stamp →
    n < tail.segment ∧ ∃ file, d.segments[n]? = some file ∧ stamp = FileStamp.read file

lemma anchored_empty (d : Directory) (root : String) :
    Anchored root d (Tail.empty root : Tail (IndexedChain Op)) := by
  refine ⟨rfl, fun n stamp hstamp => ?_⟩
  simp [Tail.empty] at hstamp

lemma Anchored.grows (h : Anchored root d tail) (hreaches : Reaches d tail)
    (hgrows : d.Grows d') : Anchored root d' tail := by
  obtain ⟨shadowed, tails, hfollows⟩ := hreaches.frontier
  refine ⟨h.root, fun n stamp hstamp => ?_⟩
  obtain ⟨hlt, file, hfile, hread⟩ := h.stamps n stamp hstamp
  have hreached : d.segments[tail.segment]? ≠ none :=
    hfollows.reached (show 0 < tail.segment by omega)
  exact ⟨hlt, file, by rw [hgrows.frozen n tail.segment hlt hreached, hfile], hread⟩

omit [Schema Op] [Checksum] in
/-- A frontier seals a segment as it found it. -/
lemma Anchored.advance (h : Anchored root d tail) {file : SegmentFile}
    (hfile : d.segments[tail.segment]? = some file)
    (hobserved : tail.observed = some (FileStamp.read file)) :
    Anchored root d (tail.advance (tail.segment + 1)) := by
  refine ⟨h.root, fun n stamp hstamp => ?_⟩
  show n < tail.segment + 1 ∧ _
  unfold Tail.advance at hstamp
  rw [hobserved] at hstamp
  dsimp only at hstamp
  rw [ExtTreeMap.getElem?_insert] at hstamp
  split at hstamp
  · next hsame =>
    cases hstamp
    rw [← Std.compare_eq_iff_eq.mp hsame]
    exact ⟨Nat.lt_succ_self _, file, hfile, rfl⟩
  · obtain ⟨hlt, hrest⟩ := h.stamps n stamp hstamp
    exact ⟨by omega, hrest⟩

lemma pollLoop_anchored (fuel : ℕ) (h : Anchored root d tail) (hreaches : Reaches d tail)
    (hexec : (pollLoop d fuel delta).exec tail = (.ok delta', tail')) :
    Anchored root d tail' := by
  induction fuel generalizing delta tail with
  | zero =>
    cases hexec
    exact h
  | succ fuel ih =>
    obtain ⟨shadowed, tails, hfollows⟩ := hreaches.frontier
    have hopened : tail.openFrontier d = .ok (d.segments[tail.segment]?.map FileStamp.read) :=
      hfollows.openFrontier
    rcases pollLoop_eq_ok hexec with ⟨-, rfl, rfl⟩ | ⟨metadata, seen, delta₁, hfound, hfirst, hrest⟩
    · exact h
    · rw [hopened] at hfound
      obtain ⟨file, hfile, rfl⟩ := Option.map_eq_some_iff.mp (Except.ok.inj hfound)
      obtain ⟨hseen, hsegment, hoffset, hexhausted, -⟩ := hreaches.visit hfile hfirst
      obtain ⟨chain, -, hlook⟩ := admitFrontier_absorbs hfirst
      have hanchored : Anchored root d seen := by
        rw [hlook]
        exact ⟨h.root, h.stamps⟩
      have hobserved : seen.observed = some (FileStamp.read file) := by
        rw [hlook]
      rcases hrest with ⟨-, rfl, rfl⟩ | ⟨next, hstays, hnumber, ⟨-, rfl, rfl⟩ | ⟨hmore, hexec⟩⟩
      · exact hanchored
      · exact hanchored
      · obtain rfl := nextSegment_eq_ok hnumber
        have hadvanced := hseen.advance (hexhausted (by omega)) hmore
        exact ih (hanchored.advance (hsegment ▸ hfile) hobserved) hadvanced hexec

lemma drainLoop_anchored (fuel : ℕ) (h : Anchored root d tail) (hreaches : Reaches d tail)
    (hexec : (drainLoop d fuel delta).exec tail = (.ok delta', tail')) :
    Anchored root d tail' := by
  induction fuel generalizing delta tail with
  | zero =>
    cases hexec
    exact h
  | succ fuel ih =>
    obtain ⟨delta₁, polled, hpoll, hrest⟩ := drainLoop_eq_ok hexec
    obtain ⟨hpolled, -⟩ := pollLoop_reaches _ hreaches hpoll
    have hanchored := pollLoop_anchored _ h hreaches hpoll
    rcases hrest with ⟨-, rfl, rfl⟩ | ⟨-, hexec⟩
    · exact hanchored
    · exact ih hanchored hpolled hexec

/-- A saved frontier is resumed. -/
lemma Anchored.resume_succeeds (h : Anchored root d tail) (hreaches : Reaches d tail) :
    tail.resume root d = .ok () := by
  obtain ⟨shadowed, tails, hfollows⟩ := hreaches.frontier
  unfold resume
  rw [if_neg (not_not.mpr h.root)]
  refine bind_eq_ok.mpr ⟨⟨⟩, forIn_yields fun r hr => ?_, ?_⟩
  · obtain ⟨n, stamp⟩ := r
    rw [ExtTreeMap.mem_toList_iff_getElem?_eq_some] at hr
    obtain ⟨-, file, hfile, hread⟩ := h.stamps n stamp hr
    dsimp only
    rw [hfile]
    dsimp only
    rw [if_neg (not_not.mpr hread.symm)]
    rfl
  · split
    · next hobserved =>
      obtain ⟨stamp, hstamp⟩ := Option.ne_none_iff_exists'.mp hobserved
      obtain ⟨file, hfile, -⟩ := hfollows.observed stamp hstamp
      change d.segments[tail.segment]? = some file at hfile
      rw [hfile]
      apply validateFrontier_of_saw
      intro other hother
      obtain ⟨found, hfound, hsaw⟩ := hfollows.observed other hother
      change d.segments[tail.segment]? = some found at hfound
      rw [hfile] at hfound
      cases hfound
      exact hsaw
    · rfl

end Tail
end EditChain.Store

namespace EditChain.Index.State

open Core Fallible Store
open Std (ExtTreeMap ExtTreeSet TransOrd LawfulEqOrd)

variable {Op Ref Key : Type} [Schema Op] [Checksum] [IndexSchema Op Ref Key] [DecidableEq Key]
  [Ord Ref] [TransOrd Ref] [LawfulEqOrd Ref] [DecidableEq Ref]
  {d : Directory} {state state' : State Op Ref Key} {σ : Type}
  {source : Ref → Fallible IoError σ ContentState} {s s' : σ}

/-- The frontier of a refreshed copy is the drained one. -/
lemma Follows.advance_drains {delta : IndexDelta} (h : state.Follows d)
    (hexec : (state.advance source d).exec s = (.ok (state', delta), s')) :
    ∃ records, (Tail.drain d).exec state.tail = (.ok records, state'.tail) := by
  unfold State.advance at hexec
  obtain ⟨⟨records, tail⟩, s₁, hdrained, hexec⟩ := exec_bind_eq_ok.mp hexec
  obtain ⟨hdrained', rfl⟩ := Prod.mk.inj hdrained
  obtain ⟨⟨next, changed, reads⟩, s₂, happly, hexec⟩ := exec_bind_eq_ok.mp hexec
  obtain ⟨changes, s₃, hchanges, hexec⟩ := exec_bind_eq_ok.mp hexec
  cases hexec
  have hdrain := Tail.drained_eq_ok hdrained'
  have hcopy : ({ state with tail := tail } : State Op Ref Key).Derived
      (acceptedBy state.tail.chain) := h.derived.of_eq rfl rfl
  obtain ⟨-, -, -, htail⟩ := hcopy.apply h.backed (Tail.drain_tracks hdrain).1 happly
  refine ⟨records, ?_⟩
  rw [hdrain]
  exact congrArg (Prod.mk _) htail.symm

omit [Checksum] [LawfulEqOrd Ref] [DecidableEq Ref] in
lemma addAll_tail {operations : List (Op × OpRecordLocation)} {reads reads' : ℕ}
    (h : (addAll source operations state reads).exec s = (.ok (state', reads'), s')) :
    state'.tail = state.tail := by
  induction operations generalizing state reads s with
  | nil =>
    cases h
    rfl
  | cons first rest ih =>
    obtain ⟨op, location⟩ := first
    rw [addAll] at h
    obtain ⟨⟨middle, reads₁⟩, s₁, hone, h⟩ := exec_bind_eq_ok.mp h
    unfold State.add at hone
    obtain ⟨⟨content, reads₂⟩, s₂, -, hone⟩ := exec_bind_eq_ok.mp hone
    cases hone
    have hrest := ih h
    exact hrest

omit [LawfulEqOrd Ref] [DecidableEq Ref] in
/-- The frontier of a built state is a drained one. -/
lemma build_drains {root name : String}
    (hexec : (build source root d name).exec s = (.ok state, s')) :
    ∃ records, (Tail.drain d).exec (Tail.empty root) = (.ok records, state.tail) := by
  unfold build at hexec
  obtain ⟨tail, s₁, htail, hexec⟩ := exec_bind_eq_ok.mp hexec
  obtain ⟨hopen, rfl⟩ := Prod.mk.inj htail
  obtain ⟨operations, s₂, hlocated, hexec⟩ := exec_bind_eq_ok.mp hexec
  obtain ⟨⟨added, reads⟩, s₃, hadd, hexec⟩ := exec_bind_eq_ok.mp hexec
  obtain ⟨hremember, rfl⟩ := Prod.mk.inj hexec
  obtain ⟨-, delta, hdrain⟩ := Tail.openAll_eq_ok hopen
  obtain ⟨-, -, -, hsame⟩ := rememberConflicts_frame hremember
  refine ⟨delta, ?_⟩
  rw [hdrain, hsame, addAll_tail hadd]

end EditChain.Index.State
