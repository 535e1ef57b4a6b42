import Mathlib.Data.List.Infix

/-!
# The first occurrence of a pattern

The windows of a list are its contiguous parts of one length, from the front. The first window that
equals a pattern is where the pattern occurs first.
-/

namespace Occurrence

variable {α : Type} [DecidableEq α]

/-- All contiguous parts with `size` elements, from the front. -/
def windows (size : ℕ) (text : List α) : List (List α) :=
  (List.range (text.length + 1 - size)).map fun start => (text.drop start).take size

/-- The position of the first window that equals the pattern. -/
def first (pattern text : List α) : Option ℕ :=
  (windows pattern.length text).findIdx? fun window => decide (window = pattern)

omit [DecidableEq α] in
/-- A pattern that begins at a position ends within the text. -/
lemma length_le_of_prefix_drop {pattern text : List α} {start : ℕ} (hne : pattern ≠ [])
    (h : pattern <+: text.drop start) : start + pattern.length ≤ text.length := by
  have hlength := h.length_le
  have hpos := List.length_pos_iff.mpr hne
  rw [List.length_drop] at hlength
  omega

omit [DecidableEq α] in
lemma length_windows (size : ℕ) (text : List α) :
    (windows size text).length = text.length + 1 - size := by
  unfold windows
  rw [List.length_map, List.length_range]

omit [DecidableEq α] in
/-- A window equals the pattern if the pattern begins there. -/
lemma window_eq {pattern text : List α} {start : ℕ}
    (h : start < (windows pattern.length text).length) :
    (windows pattern.length text)[start] = pattern ↔ pattern <+: text.drop start := by
  have hwindow : (windows pattern.length text)[start]
      = (text.drop start).take pattern.length := by
    simp only [windows, List.getElem_map, List.getElem_range]
  rw [hwindow, List.prefix_iff_eq_take, eq_comm]

/-- What is found is an occurrence, and there is none before it. -/
theorem first_eq_some {pattern text : List α} (hne : pattern ≠ []) {start : ℕ} :
    first pattern text = some start
      ↔ pattern <+: text.drop start ∧ ∀ other < start, ¬ pattern <+: text.drop other := by
  unfold first
  rw [List.findIdx?_eq_some_iff_getElem]
  constructor
  · intro ⟨hstart, hmatch, hbefore⟩
    refine ⟨(window_eq hstart).mp (of_decide_eq_true hmatch), fun other hother hoccurs => ?_⟩
    have hlt : other < (windows pattern.length text).length := by omega
    exact hbefore other hother (decide_eq_true ((window_eq hlt).mpr hoccurs))
  · intro ⟨hoccurs, hbefore⟩
    have hfits := length_le_of_prefix_drop hne hoccurs
    have hstart : start < (windows pattern.length text).length := by
      rw [length_windows]
      omega
    refine ⟨hstart, decide_eq_true ((window_eq hstart).mpr hoccurs), fun other hother hmatch => ?_⟩
    have hlt : other < (windows pattern.length text).length := by omega
    exact hbefore other hother ((window_eq hlt).mp (of_decide_eq_true hmatch))

/-- Nothing is found if the pattern does not occur. -/
theorem first_eq_none {pattern text : List α} (hne : pattern ≠ []) :
    first pattern text = none ↔ ¬ pattern <:+: text := by
  constructor
  · intro hnone hoccurs
    obtain ⟨before, after, rfl⟩ := hoccurs
    -- the position after what comes before is among the windows
    have hoccurs : pattern <+: (before ++ pattern ++ after).drop before.length := by
      rw [List.append_assoc, List.drop_left]
      exact List.prefix_append pattern after
    have hfits := length_le_of_prefix_drop hne hoccurs
    have hstart : before.length < (windows pattern.length (before ++ pattern ++ after)).length := by
      rw [length_windows]
      omega
    have hfalse := List.findIdx?_eq_none_iff.mp hnone _ (List.getElem_mem hstart)
    exact of_decide_eq_false hfalse ((window_eq hstart).mpr hoccurs)
  · intro hnot
    rw [Option.eq_none_iff_forall_ne_some]
    intro start hsome
    obtain ⟨hoccurs, -⟩ := (first_eq_some hne).mp hsome
    exact hnot (hoccurs.isInfix.trans (List.drop_suffix start text).isInfix)

end Occurrence
