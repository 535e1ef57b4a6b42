import Mathlib.Data.List.Basic
import Mathlib.Tactic.Common

/-!
# Common ends of two lists

How far two lists agree from their beginning and, beyond that, from their end. What lies between
the two common ends of one list, put in the place of what lies there in the other, gives the one.
-/

namespace CommonEnds

variable {α : Type*} [DecidableEq α]

/-- The number of leading entries in which two lists agree. -/
def agreement (xs ys : List α) : ℕ := ((xs.zip ys).takeWhile fun p => p.1 = p.2).length

lemma agreement_cons (x y : α) (xs ys : List α) :
    agreement (x :: xs) (y :: ys) = if x = y then agreement xs ys + 1 else 0 := by
  unfold agreement
  rw [List.zip_cons_cons, List.takeWhile_cons]
  by_cases h : x = y
  · simp [h]
  · simp [h]

lemma agreement_le (xs ys : List α) :
    agreement xs ys ≤ xs.length ∧ agreement xs ys ≤ ys.length := by
  have hzip : agreement xs ys ≤ (xs.zip ys).length := (List.takeWhile_sublist _).length_le
  rw [List.length_zip] at hzip
  omega

lemma take_agreement (xs ys : List α) :
    xs.take (agreement xs ys) = ys.take (agreement xs ys) := by
  induction xs generalizing ys with
  | nil =>
    have hle := (agreement_le [] ys).1
    rw [List.length_nil, Nat.le_zero] at hle
    rw [hle, List.take_zero, List.take_zero]
  | cons x xs ih =>
    cases ys with
    | nil =>
      have hle := (agreement_le (x :: xs) []).2
      rw [List.length_nil, Nat.le_zero] at hle
      rw [hle, List.take_zero, List.take_zero]
    | cons y ys =>
      rw [agreement_cons]
      split
      · next heq => rw [heq, List.take_succ_cons, List.take_succ_cons, ih]
      · rw [List.take_zero, List.take_zero]

/-- No longer beginning is common. -/
lemma le_agreement {xs ys : List α} {k : ℕ} (hx : k ≤ xs.length) (hy : k ≤ ys.length)
    (h : xs.take k = ys.take k) : k ≤ agreement xs ys := by
  induction k generalizing xs ys with
  | zero => exact Nat.zero_le _
  | succ k ih =>
    cases xs with
    | nil => simp at hx
    | cons x xs =>
      cases ys with
      | nil => simp at hy
      | cons y ys =>
        rw [List.take_succ_cons, List.take_succ_cons, List.cons.injEq] at h
        rw [List.length_cons] at hx hy
        rw [agreement_cons, if_pos h.1]
        have hrest := ih (by omega) (by omega) h.2
        omega

/-! ## Common endings -/

/-- The number of final entries in which two lists agree after their first `n` entries. -/
def endAgreement (n : ℕ) (xs ys : List α) : ℕ :=
  agreement (xs.reverse.take (xs.length - n)) (ys.reverse.take (ys.length - n))

variable (n : ℕ) (xs ys : List α)

lemma endAgreement_le :
    endAgreement n xs ys ≤ xs.length - n ∧ endAgreement n xs ys ≤ ys.length - n := by
  have hle := agreement_le (xs.reverse.take (xs.length - n)) (ys.reverse.take (ys.length - n))
  rw [List.length_take, List.length_take] at hle
  unfold endAgreement
  omega

omit [DecidableEq α] in
/-- A short beginning of the reversed list is the reversed ending. -/
lemma take_take_reverse {m k : ℕ} (h : k ≤ m) :
    (xs.reverse.take m).take k = (xs.drop (xs.length - k)).reverse := by
  rw [List.take_take, Nat.min_eq_left h, List.take_reverse]

lemma drop_endAgreement :
    xs.drop (xs.length - endAgreement n xs ys) = ys.drop (ys.length - endAgreement n xs ys) := by
  have hle := endAgreement_le n xs ys
  have htake : (xs.reverse.take (xs.length - n)).take (endAgreement n xs ys)
      = (ys.reverse.take (ys.length - n)).take (endAgreement n xs ys) := take_agreement _ _
  rwa [take_take_reverse xs hle.1, take_take_reverse ys hle.2, List.reverse_inj] at htake

variable {n xs ys}

/-- No longer ending beyond the first `n` entries is common. -/
lemma le_endAgreement {k : ℕ} (hx : k ≤ xs.length - n) (hy : k ≤ ys.length - n)
    (h : xs.drop (xs.length - k) = ys.drop (ys.length - k)) : k ≤ endAgreement n xs ys := by
  apply le_agreement
  · rw [List.length_take, List.length_reverse]
    omega
  · rw [List.length_take, List.length_reverse]
    omega
  · rw [take_take_reverse xs hx, take_take_reverse ys hy, h]

/-! ## The part between the common ends -/

/-- The common ends of `xs` around the middle of `ys` are `ys`. -/
lemma replace_middle (xs ys : List α) :
    xs.take (agreement xs ys)
      ++ (ys.drop (agreement xs ys)).take
        (ys.length - endAgreement (agreement xs ys) xs ys - agreement xs ys)
      ++ xs.drop (xs.length - endAgreement (agreement xs ys) xs ys) = ys := by
  have hle := agreement_le xs ys
  have hend := endAgreement_le (agreement xs ys) xs ys
  rw [drop_endAgreement, take_agreement, ← List.take_add,
    Nat.add_sub_cancel' (by omega), List.take_append_drop]

/-- Different lists differ between their common ends. -/
lemma middle_nonempty (h : xs ≠ ys) :
    agreement xs ys < xs.length - endAgreement (agreement xs ys) xs ys
      ∨ agreement xs ys < ys.length - endAgreement (agreement xs ys) xs ys := by
  by_contra hempty
  have hle := agreement_le xs ys
  have hend := endAgreement_le (agreement xs ys) xs ys
  have hmiddle := replace_middle xs ys
  have hsame : xs.length - endAgreement (agreement xs ys) xs ys = agreement xs ys := by omega
  have hnothing : ys.length - endAgreement (agreement xs ys) xs ys - agreement xs ys = 0 := by
    omega
  rw [hnothing, List.take_zero, List.append_nil, hsame, List.take_append_drop] at hmiddle
  exact h hmiddle

end CommonEnds
