import Mathlib.Tactic.Common

/-!
# Resumable unit readers

A *unit reader* recognizes one unit at the front of a string, given a small state: it finds a
complete unit and its size, it asks for more input, or it rejects the input. Reading on from a unit
boundary, with the state reached there, is the same as reading everything at once, provided that a
unit once found, and a rejection once made, are not revised when more input follows. The results
below make this precise for whole strings (`run_append`), for boundaries inside a growing string
(`Boundary`), and for readers that look at bounded slices only (`run_take_of_idle`).
-/

/-- What a reader finds at the front of a string. -/
inductive UnitReader.Next (σ ι ε : Type) where
  /-- A complete unit, its size, and the state after it. -/
  | unit (value : ι) (size : ℕ) (state : σ)
  /-- The string ends inside the unit. -/
  | more
  | bad (error : ε)

/-- A reader of units whose findings are stable under extension of the input. -/
structure UnitReader (α σ ι ε : Type) where
  next : σ → List α → UnitReader.Next σ ι ε
  size_pos : ∀ {s x i n t}, next s x = .unit i n t → 0 < n
  size_le : ∀ {s x i n t}, next s x = .unit i n t → n ≤ x.length
  unit_take : ∀ {s x i n t}, next s x = .unit i n t → next s (x.take n) = .unit i n t
  unit_append : ∀ {s x i n t} (y : List α), next s x = .unit i n t → next s (x ++ y) = .unit i n t
  bad_append : ∀ {s x e} (y : List α), next s x = .bad e → next s (x ++ y) = .bad e

namespace UnitReader

variable {α σ ι ε : Type}

/-- How the reading of a string ended. -/
inductive Ending (ε : Type) where
  | clean
  | more
  | bad (error : ε)
deriving DecidableEq

/-- The units of a string with their offsets, and where and how the reading ended. -/
@[ext] structure Scan (σ ι ε : Type) where
  units : List (ℕ × ι)
  consumed : ℕ
  state : σ
  ending : Ending ε

/-- The scan of a string that follows `n` units of input. -/
def Scan.shift (n : ℕ) (r : Scan σ ι ε) : Scan σ ι ε :=
  { r with units := r.units.map fun u => (n + u.1, u.2), consumed := n + r.consumed }

/-- The scan that yields `units` before `r`. -/
def Scan.prepend (units : List (ℕ × ι)) (r : Scan σ ι ε) : Scan σ ι ε :=
  { r with units := units ++ r.units }

lemma Scan.shift_zero (r : Scan σ ι ε) : r.shift 0 = r := by
  simp [shift]

lemma Scan.shift_shift (m n : ℕ) (r : Scan σ ι ε) : (r.shift n).shift m = r.shift (m + n) := by
  simp [shift, Nat.add_assoc, Function.comp_def]

lemma Scan.prepend_nil (r : Scan σ ι ε) : r.prepend [] = r := rfl

variable (R : UnitReader α σ ι ε)

/-- Read a whole string. -/
def run (s : σ) (x : List α) : Scan σ ι ε :=
  if x = [] then ⟨[], 0, s, .clean⟩
  else
    match _h : R.next s x with
    | .more => ⟨[], 0, s, .more⟩
    | .bad e => ⟨[], 0, s, .bad e⟩
    | .unit i n t => ((run t (x.drop n)).shift n).prepend [(0, i)]
termination_by x.length
decreasing_by
  have hpos := R.size_pos _h
  have hle := R.size_le _h
  rw [List.length_drop]
  omega

@[simp] lemma run_nil (s : σ) : R.run s [] = ⟨[], 0, s, .clean⟩ := by
  rw [run, if_pos rfl]

variable {R}
variable {s t u : σ} {x y : List α} {i : ι} {n m : ℕ} {e : ε}

lemma ne_nil_of_unit (h : R.next s x = .unit i n t) : x ≠ [] := by
  have hpos := R.size_pos h
  have hle := R.size_le h
  intro hx
  rw [hx, List.length_nil] at hle
  omega

lemma run_of_unit (h : R.next s x = .unit i n t) :
    R.run s x = ((R.run t (x.drop n)).shift n).prepend [(0, i)] := by
  rw [run, if_neg (ne_nil_of_unit h)]
  split
  · next hm => rw [h] at hm; cases hm
  · next hb => rw [h] at hb; cases hb
  · next j k v hu =>
    rw [h] at hu
    cases hu
    rfl

lemma run_of_more (hx : x ≠ []) (h : R.next s x = .more) : R.run s x = ⟨[], 0, s, .more⟩ := by
  rw [run, if_neg hx]
  split
  · rfl
  · next hb => rw [h] at hb; cases hb
  · next hu => rw [h] at hu; cases hu

lemma run_of_bad (hx : x ≠ []) (h : R.next s x = .bad e) : R.run s x = ⟨[], 0, s, .bad e⟩ := by
  rw [run, if_neg hx]
  split
  · next hm => rw [h] at hm; cases hm
  · next hb =>
    rw [h] at hb
    cases hb
    rfl
  · next hu => rw [h] at hu; cases hu

/-- Induction along the units of a string. -/
lemma run_induction {motive : σ → List α → Prop}
    (nil : ∀ s, motive s [])
    (more : ∀ s x, x ≠ [] → R.next s x = .more → motive s x)
    (bad : ∀ s x e, x ≠ [] → R.next s x = .bad e → motive s x)
    (unit : ∀ s x i n t, R.next s x = .unit i n t → motive t (x.drop n) → motive s x)
    (s : σ) (x : List α) : motive s x := by
  induction hlen : x.length using Nat.strongRecOn generalizing s x with
  | _ k ih =>
    by_cases hx : x = []
    · rw [hx]
      exact nil s
    · cases h : R.next s x with
      | more => exact more s x hx h
      | bad e => exact bad s x e hx h
      | unit i n t =>
        refine unit s x i n t h (ih (x.drop n).length ?_ t (x.drop n) rfl)
        have hpos := R.size_pos h
        have hle := R.size_le h
        rw [List.length_drop]
        omega

/-- No more is consumed than there is. -/
lemma consumed_le (s : σ) (x : List α) : (R.run s x).consumed ≤ x.length := by
  induction s, x using run_induction (R := R) with
  | nil s => simp
  | more s x hx h => simp [run_of_more hx h]
  | bad s x e hx h => simp [run_of_bad hx h]
  | unit s x i n t h ih =>
    have hle := R.size_le h
    rw [run_of_unit h]
    simp only [Scan.prepend, Scan.shift]
    rw [List.length_drop] at ih
    omega

/-- Reading ends cleanly exactly when everything is consumed. -/
lemma clean_iff_consumed (s : σ) (x : List α) :
    (R.run s x).ending = .clean ↔ (R.run s x).consumed = x.length := by
  induction s, x using run_induction (R := R) with
  | nil s => simp
  | more s x hx h => simp [run_of_more hx h, eq_comm, hx]
  | bad s x e hx h => simp [run_of_bad hx h, eq_comm, hx]
  | unit s x i n t h ih =>
    have hle := R.size_le h
    rw [run_of_unit h]
    simp only [Scan.prepend, Scan.shift, ih, List.length_drop]
    omega

/-- A reading that asks for more asks for it where it stopped. -/
lemma next_of_more (h : (R.run s x).ending = .more) :
    R.next (R.run s x).state (x.drop (R.run s x).consumed) = .more := by
  induction s, x using run_induction (R := R) with
  | nil s => simp at h
  | more s x hx hm => simpa [run_of_more hx hm] using hm
  | bad s x e hx hb => simp [run_of_bad hx hb] at h
  | unit s x i n t hu ih =>
    rw [run_of_unit hu] at h ⊢
    simp only [Scan.prepend, Scan.shift] at h ⊢
    rw [← List.drop_drop]
    exact ih h

/-- A reading that rejects its input rejects what begins where it stopped. -/
lemma next_of_bad (h : (R.run s x).ending = .bad e) :
    R.next (R.run s x).state (x.drop (R.run s x).consumed) = .bad e := by
  induction s, x using run_induction (R := R) with
  | nil s => simp at h
  | more s x hx hm => simp [run_of_more hx hm] at h
  | bad s x e hx hb =>
    rw [run_of_bad hx hb] at h ⊢
    cases h
    exact hb
  | unit s x i n t hu ih =>
    rw [run_of_unit hu] at h ⊢
    simp only [Scan.prepend, Scan.shift] at h ⊢
    rw [← List.drop_drop]
    exact ih h

/-- Nothing consumed means that no unit was found and the state was kept. -/
lemma of_consumed_eq_zero (h : (R.run s x).consumed = 0) :
    (R.run s x).units = [] ∧ (R.run s x).state = s := by
  by_cases hx : x = []
  · simp [hx]
  · cases hn : R.next s x with
    | more => simp [run_of_more hx hn]
    | bad e => simp [run_of_bad hx hn]
    | unit i n t =>
      have hpos := R.size_pos hn
      rw [run_of_unit hn] at h
      simp only [Scan.prepend, Scan.shift] at h
      omega

/-- The whole string read in two parts: the second part starts at the last boundary of the first,
in the state reached there. -/
theorem run_append (s : σ) (x y : List α) (h : ∀ e, (R.run s x).ending ≠ .bad e) :
    R.run s (x ++ y)
      = ((R.run (R.run s x).state ((x ++ y).drop (R.run s x).consumed)).shift
          (R.run s x).consumed).prepend (R.run s x).units := by
  induction s, x using run_induction (R := R) with
  | nil s => simp [Scan.shift_zero, Scan.prepend_nil]
  | more s x hx hm => simp [run_of_more hx hm, Scan.shift_zero, Scan.prepend_nil]
  | bad s x e hx hb => exact absurd (by rw [run_of_bad hx hb]) (h e)
  | unit s x i n t hu ih =>
    have hle := R.size_le hu
    have hdrop : (x ++ y).drop n = x.drop n ++ y := List.drop_append_of_le_length hle
    have hrest : ∀ e, (R.run t (x.drop n)).ending ≠ .bad e := by
      intro e he
      refine h e ?_
      rw [run_of_unit hu]
      exact he
    rw [run_of_unit (R.unit_append y hu), hdrop, ih hrest, run_of_unit hu]
    simp only [Scan.prepend, Scan.shift, ← List.drop_drop, hdrop, List.map_append, List.map_map,
      Function.comp_def, Nat.add_assoc, List.cons_append, List.nil_append]

/-- A rejection is final: what follows the input changes nothing. -/
theorem run_append_of_bad (s : σ) (x y : List α) (h : (R.run s x).ending = .bad e) :
    R.run s (x ++ y) = R.run s x := by
  induction s, x using run_induction (R := R) with
  | nil s => simp at h
  | more s x hx hm => simp [run_of_more hx hm] at h
  | bad s x e' hx hb =>
    rw [run_of_bad hx hb, run_of_bad (by simp [hx]) (R.bad_append y hb)]
  | unit s x i n t hu ih =>
    have hle := R.size_le hu
    have hdrop : (x ++ y).drop n = x.drop n ++ y := List.drop_append_of_le_length hle
    rw [run_of_unit hu] at h
    rw [run_of_unit (R.unit_append y hu), hdrop, ih h, run_of_unit hu]

/-! ## Boundaries -/

/-- `n` is a unit boundary of `x`: the first `n` elements are exactly the listed units, and leave
the state `t`. -/
def Boundary (R : UnitReader α σ ι ε) (s : σ) (x : List α) (n : ℕ) (units : List (ℕ × ι)) (t : σ) :
    Prop :=
  n ≤ x.length ∧ R.run s (x.take n) = ⟨units, n, t, .clean⟩

lemma Boundary.zero (R : UnitReader α σ ι ε) (s : σ) (x : List α) : R.Boundary s x 0 [] s :=
  ⟨Nat.zero_le _, by simp⟩

/-- A boundary stays one when the string grows. -/
lemma Boundary.append {units : List (ℕ × ι)} (h : R.Boundary s x n units t) (y : List α) :
    R.Boundary s (x ++ y) n units t := by
  refine ⟨?_, ?_⟩
  · rw [List.length_append]
    have := h.1
    omega
  · rw [List.take_append_of_le_length h.1]
    exact h.2

/-- Reading everything is reading on from a boundary. -/
lemma Boundary.run_eq {units : List (ℕ × ι)} (h : R.Boundary s x n units t) :
    R.run s x = ((R.run t (x.drop n)).shift n).prepend units := by
  have hsplit := run_append (R := R) s (x.take n) (x.drop n) (by rw [h.2]; intro e he; cases he)
  rw [List.take_append_drop, h.2] at hsplit
  exact hsplit

/-- What a run consumes is a boundary. -/
lemma run_take_consumed (s : σ) (x : List α) :
    R.run s (x.take (R.run s x).consumed)
      = ⟨(R.run s x).units, (R.run s x).consumed, (R.run s x).state, .clean⟩ := by
  induction s, x using run_induction (R := R) with
  | nil s => simp
  | more s x hx h => simp [run_of_more hx h]
  | bad s x e hx h => simp [run_of_bad hx h]
  | unit s x i n t h ih =>
    have hle := R.size_le h
    have hcons : (R.run s x).consumed = n + (R.run t (x.drop n)).consumed := by
      rw [run_of_unit h]
      rfl
    have htake : x.take (n + (R.run t (x.drop n)).consumed)
        = x.take n ++ (x.drop n).take (R.run t (x.drop n)).consumed := List.take_add
    have hunit : R.next s (x.take (n + (R.run t (x.drop n)).consumed)) = .unit i n t := by
      rw [htake]
      exact R.unit_append _ (R.unit_take h)
    have hdrop : (x.take (n + (R.run t (x.drop n)).consumed)).drop n
        = (x.drop n).take (R.run t (x.drop n)).consumed := by
      rw [htake, List.drop_append_of_le_length (by simp [hle]), List.drop_take_self,
        List.nil_append]
    rw [hcons, run_of_unit hunit, hdrop, ih, run_of_unit h]
    rfl

/-- Reading on from a boundary, by any part of the rest, ends at a boundary. -/
lemma Boundary.advance {units : List (ℕ × ι)} (h : R.Boundary s x n units t)
    (hpart : y <+: x.drop n) :
    R.Boundary s x (n + (R.run t y).consumed)
      (units ++ ((R.run t y).shift n).units) (R.run t y).state := by
  obtain ⟨z, hz⟩ := hpart
  have hcons := consumed_le (R := R) t y
  have hlen : y.length ≤ x.length - n := by
    rw [← List.length_drop, ← hz, List.length_append]
    omega
  have hn := h.1
  refine ⟨by omega, ?_⟩
  have htake : x.take (n + (R.run t y).consumed) = x.take n ++ y.take (R.run t y).consumed := by
    rw [List.take_add, ← hz, List.take_append_of_le_length hcons]
  have hb : R.Boundary s (x.take n ++ y.take (R.run t y).consumed) n units t := by
    refine ⟨by simp [hn], ?_⟩
    rw [List.take_append_of_le_length (by simp [hn]), List.take_take, Nat.min_self]
    exact h.2
  have hrest : (x.take n ++ y.take (R.run t y).consumed).drop n = y.take (R.run t y).consumed := by
    rw [List.drop_append_of_le_length (by simp [hn]), List.drop_take_self, List.nil_append]
  rw [htake, hb.run_eq, hrest, run_take_consumed]
  rfl

/-! ## Bounded slices -/

/-- The reader looks at no more than the first `limit` elements. -/
def Local (R : UnitReader α σ ι ε) (limit : ℕ) : Prop :=
  ∀ (s : σ) (x : List α), R.next s (x.take limit) = R.next s x

/-- A slice in which nothing is consumed speaks for the whole string: nothing is consumed there
either, for the same reason. -/
lemma run_take_of_idle {limit : ℕ} (hlocal : R.Local limit) (hlimit : 0 < limit)
    (h : (R.run s (x.take limit)).consumed = 0) : R.run s x = R.run s (x.take limit) := by
  by_cases hx : x = []
  · simp [hx]
  · have hslice : x.take limit ≠ [] := by
      simp only [ne_eq, List.take_eq_nil_iff, not_or]
      exact ⟨by omega, hx⟩
    cases hn : R.next s x with
    | more => rw [run_of_more hx hn, run_of_more hslice ((hlocal s x).trans hn)]
    | bad e => rw [run_of_bad hx hn, run_of_bad hslice ((hlocal s x).trans hn)]
    | unit i n t =>
      have hpos := R.size_pos hn
      rw [run_of_unit ((hlocal s x).trans hn)] at h
      simp only [Scan.prepend, Scan.shift] at h
      omega

end UnitReader
