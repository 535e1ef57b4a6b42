import Mathlib.Tactic.Common

/-!
# Pages of an ordered list

A list in increasing order is read in pages. The reader of a page keeps the last element it was
given and asks for what comes strictly after it; whether there is more is seen from one element
beyond the page. Following the pages yields the list, and every page but the last yields something.
-/

namespace Paging

variable {α : Type} [LT α] [DecidableLT α]

/-- What comes strictly after a cursor. -/
def beyond (cursor : Option α) (ids : List α) : List α :=
  ids.filter fun id => cursor.all fun last => decide (last < id)

/-- The next page of at most `limit` elements, and the cursor to go on from if there is more. -/
def page (ids : List α) (cursor : Option α) (limit : ℕ) : List α × Option α :=
  let found := (beyond cursor ids).take (limit + 1)
  (found.take limit, if limit < found.length then (found.take limit).getLast? else none)

/-- The pages with the given limits, as far as there are any. -/
def pages (ids : List α) (limits : ℕ → ℕ) : ℕ → ℕ → Option α → List (List α × Option α)
  | 0, _, _ => []
  | fuel + 1, n, cursor =>
    let found := page ids cursor (limits n)
    found :: if found.2.isSome then pages ids limits fuel (n + 1) found.2 else []

@[simp] lemma beyond_none (ids : List α) : beyond none ids = ids :=
  List.filter_eq_self.mpr fun _ _ => rfl

lemma mem_beyond {cursor : Option α} {ids : List α} {id : α} :
    id ∈ beyond cursor ids ↔ id ∈ ids ∧ ∀ last ∈ cursor, last < id := by
  simp [beyond, Option.all_eq_true]

lemma pairwise_beyond {ids : List α} (h : ids.Pairwise (· < ·)) (cursor : Option α) :
    (beyond cursor ids).Pairwise (· < ·) :=
  h.filter _

variable [LE α] [Std.LawfulOrderLT α] [Std.IsPreorder α]

/-- What comes after the last element of the beginning of an ordered list is the rest. -/
lemma beyond_append {before rest : List α} {last : α}
    (h : (before ++ rest).Pairwise (· < ·)) (hlast : before.getLast? = some last) :
    beyond (some last) (before ++ rest) = rest := by
  obtain ⟨init, rfl⟩ := List.getLast?_eq_some_iff.mp hlast
  obtain ⟨hbefore, -, hacross⟩ := List.pairwise_append.mp h
  unfold beyond
  rw [List.filter_append, List.filter_eq_nil_iff.mpr, List.nil_append,
    List.filter_eq_self.mpr]
  · intro id hid
    exact decide_eq_true (hacross last (by simp) id hid)
  · -- nothing of the beginning comes after its last element
    intro id hid hlt
    have hlt : last < id := of_decide_eq_true hlt
    rcases List.mem_append.mp hid with hinit | heq
    · have hback := (List.pairwise_append.mp hbefore).2.2 id hinit last (by simp)
      exact Std.lt_irrefl (Std.lt_trans hlt hback)
    · rw [List.mem_singleton.mp heq] at hlt
      exact Std.lt_irrefl hlt

/-- A cursor that is further on replaces the one before. -/
lemma beyond_beyond {cursor : Option α} {ids : List α} {last : α} (h : last ∈ beyond cursor ids) :
    beyond (some last) (beyond cursor ids) = beyond (some last) ids := by
  unfold beyond
  rw [List.filter_filter]
  apply List.filter_congr
  intro id _
  rw [Bool.eq_iff_iff, Bool.and_eq_true, and_iff_left_iff_imp]
  intro hlt
  rw [Option.all_eq_true]
  intro first hfirst
  exact decide_eq_true (Std.lt_trans ((mem_beyond.mp h).2 first hfirst) (of_decide_eq_true hlt))

omit [LT α] [DecidableLT α] [LE α] [Std.LawfulOrderLT α] [Std.IsPreorder α] in
/-- A cut that is not longer than the limit is all there is. -/
lemma take_of_cut {rest : List α} {limit : ℕ} (h : ¬ limit < (rest.take (limit + 1)).length) :
    rest.length ≤ limit := by
  rw [List.length_take] at h
  omega

omit [LE α] [Std.LawfulOrderLT α] [Std.IsPreorder α] in
lemma page_fst (ids : List α) (cursor : Option α) (limit : ℕ) :
    (page ids cursor limit).1 = (beyond cursor ids).take limit := by
  show ((beyond cursor ids).take (limit + 1)).take limit = _
  rw [List.take_take, Nat.min_eq_left (Nat.le_succ limit)]

omit [LE α] [Std.LawfulOrderLT α] [Std.IsPreorder α] in
/-- The last page yields all that is left. -/
lemma page_of_none {ids : List α} {cursor : Option α} {limit : ℕ} (hlimit : 0 < limit)
    (h : (page ids cursor limit).2 = none) : (page ids cursor limit).1 = beyond cursor ids := by
  rw [page_fst]
  by_cases hmore : limit < ((beyond cursor ids).take (limit + 1)).length
  · have hlast : (page ids cursor limit).1.getLast? = none := by
      rw [← h]
      exact (if_pos hmore).symm
    rw [page_fst, List.getLast?_eq_none_iff, List.take_eq_nil_iff] at hlast
    rcases hlast with hzero | hnil
    · omega
    · rw [hnil, List.take_nil]
  · exact List.take_of_length_le (take_of_cut hmore)

/-- A page that is followed by another yields something, and leaves what comes after it. -/
lemma page_of_some {ids : List α} (hids : ids.Pairwise (· < ·)) {cursor : Option α} {limit : ℕ}
    {last : α} (h : (page ids cursor limit).2 = some last) :
    (page ids cursor limit).1 ≠ []
      ∧ (page ids cursor limit).1 ++ beyond (some last) ids = beyond cursor ids := by
  have hlast : (page ids cursor limit).1.getLast? = some last := by
    have hchoice : (if limit < ((beyond cursor ids).take (limit + 1)).length
        then (page ids cursor limit).1.getLast? else none) = some last := h
    split at hchoice
    · exact hchoice
    · cases hchoice
  refine ⟨fun hnil => ?_, ?_⟩
  · rw [hnil] at hlast
    cases hlast
  · rw [page_fst] at hlast ⊢
    have hmem : last ∈ beyond cursor ids := List.mem_of_mem_take (List.mem_of_getLast? hlast)
    have hsplit := List.take_append_drop limit (beyond cursor ids)
    have hsorted := pairwise_beyond hids cursor
    rw [← hsplit] at hsorted
    have hrest := beyond_append hsorted hlast
    rw [hsplit, beyond_beyond hmem] at hrest
    rw [hrest, hsplit]

/-- Whatever the limits, the pages from a cursor on yield what comes after it, in order; only the
last page has no cursor to go on from, and every other one yields something. -/
theorem pages_spec {ids : List α} (hids : ids.Pairwise (· < ·)) {limits : ℕ → ℕ}
    (hlimits : ∀ n, 0 < limits n) {fuel n : ℕ} {cursor : Option α}
    (hfuel : (beyond cursor ids).length < fuel) :
    ∃ before last, pages ids limits fuel n cursor = before ++ [last]
      ∧ (∀ found ∈ before, found.1 ≠ [] ∧ found.2.isSome) ∧ last.2 = none
      ∧ (before ++ [last]).flatMap Prod.fst = beyond cursor ids := by
  induction fuel generalizing n cursor with
  | zero => omega
  | succ fuel ih =>
    rw [pages]
    cases hnext : (page ids cursor (limits n)).2 with
    | none =>
      refine ⟨[], page ids cursor (limits n), rfl, nofun, hnext, ?_⟩
      rw [List.nil_append, List.flatMap_singleton]
      exact page_of_none (hlimits n) hnext
    | some last =>
      obtain ⟨hne, hsplit⟩ := page_of_some hids hnext
      -- the page yields something, so that less is left
      have hpos := List.length_pos_iff.mpr hne
      have hlength := congrArg List.length hsplit
      rw [List.length_append] at hlength
      obtain ⟨before, final, hpages, hbefore, hfinal, hall⟩ :=
        @ih (n + 1) (some last) (by omega)
      refine ⟨page ids cursor (limits n) :: before, final, ?_, ?_, hfinal, ?_⟩
      · rw [Option.isSome_some, if_pos rfl, hpages]
        rfl
      · intro found hfound
        rcases List.mem_cons.mp hfound with rfl | hlater
        · exact ⟨hne, by rw [hnext]; rfl⟩
        · exact hbefore found hlater
      · rw [List.cons_append, List.flatMap_cons, hall]
        exact hsplit

end Paging
