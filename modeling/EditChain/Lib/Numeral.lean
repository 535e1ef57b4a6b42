import Mathlib.Data.List.Induction
import Mathlib.Data.Nat.Digits.Lemmas
import Mathlib.Tactic.Common
import Mathlib.Tactic.Ring

/-!
# Numerals

Digits of a fixed width and shortest decimal spellings, both most significant digit first; how the
number parsing of the standard library reads a text, a sign included; and the digits of texts as
bytes.
-/

namespace Numeral

/-! ## Lists of digits -/

/-- The number that digits denote. -/
def value (radix : ℕ) (digits : List ℕ) : ℕ := digits.foldl (fun n d => n * radix + d) 0

/-- The last `width` digits of a number. -/
def fixed (radix : ℕ) : ℕ → ℕ → List ℕ
  | 0, _ => []
  | width + 1, n => fixed radix width (n / radix) ++ [n % radix]

/-- The digits of a number, with none to spare. -/
def shortest (n : ℕ) : List ℕ := if n = 0 then [0] else (Nat.digits 10 n).reverse

variable {radix width n : ℕ} {digits more : List ℕ}

@[simp] lemma value_nil : value radix [] = 0 := rfl

lemma foldl_eq (start : ℕ) : digits.foldl (fun n d => n * radix + d) start
    = start * radix ^ digits.length + value radix digits := by
  induction digits using List.reverseRecOn with
  | nil => simp
  | append_singleton digits d ih =>
    rw [value, List.foldl_append, List.foldl_append, ← value, ih]
    simp only [List.foldl_cons, List.foldl_nil, List.length_append, List.length_singleton, pow_succ]
    ring

lemma value_append : value radix (digits ++ more)
    = value radix digits * radix ^ more.length + value radix more := by
  rw [value, List.foldl_append, ← value, foldl_eq]

lemma value_snoc (d : ℕ) : value radix (digits ++ [d]) = value radix digits * radix + d := by
  rw [value_append]
  simp [value]

lemma value_lt (h : ∀ d ∈ digits, d < radix) :
    value radix digits < radix ^ digits.length := by
  induction digits using List.reverseRecOn with
  | nil => simp
  | append_singleton digits d ih =>
    have hd := h d (by simp)
    have hinit := ih fun d hd => h d (by simp [hd])
    rw [value_snoc, List.length_append, List.length_singleton, pow_succ]
    calc value radix digits * radix + d < value radix digits * radix + radix := by omega
      _ = (value radix digits + 1) * radix := by ring
      _ ≤ radix ^ digits.length * radix := Nat.mul_le_mul_right radix hinit

@[simp] lemma length_fixed : (fixed radix width n).length = width := by
  induction width generalizing n with
  | zero => rfl
  | succ width ih => simp [fixed, ih]

lemma lt_of_mem_fixed (hradix : 0 < radix) {d : ℕ} (h : d ∈ fixed radix width n) : d < radix := by
  induction width generalizing n with
  | zero => cases h
  | succ width ih =>
    rw [fixed, List.mem_append, List.mem_singleton] at h
    rcases h with h | rfl
    · exact ih h
    · exact Nat.mod_lt n hradix

/-- Digits of a fixed width denote the number, as far as it fits. -/
lemma value_fixed : value radix (fixed radix width n) = n % radix ^ width := by
  induction width generalizing n with
  | zero => simp [fixed, Nat.mod_one]
  | succ width ih =>
    rw [fixed, value_snoc, ih, pow_succ, Nat.mul_comm (radix ^ width), Nat.mod_mul,
      Nat.mul_comm, Nat.add_comm]

/-- Digits are those of the number they denote. -/
lemma fixed_value (hradix : 0 < radix) (h : ∀ d ∈ digits, d < radix) :
    fixed radix digits.length (value radix digits) = digits := by
  induction digits using List.reverseRecOn with
  | nil => rfl
  | append_singleton digits d ih =>
    have hd := h d (by simp)
    rw [List.length_append, List.length_singleton, fixed, value_snoc]
    have hdiv : (value radix digits * radix + d) / radix = value radix digits := by
      rw [Nat.mul_comm, Nat.mul_add_div hradix, Nat.div_eq_of_lt hd, Nat.add_zero]
    have hmod : (value radix digits * radix + d) % radix = d := by
      rw [Nat.mul_comm, Nat.mul_add_mod, Nat.mod_eq_of_lt hd]
    rw [hdiv, hmod, ih fun d hd => h d (by simp [hd])]

/-- The first digits are those of the number without the last digits. -/
lemma take_fixed {count : ℕ} (h : count ≤ width) :
    (fixed radix width n).take count = fixed radix count (n / radix ^ (width - count)) := by
  obtain ⟨rest, rfl⟩ := Nat.exists_eq_add_of_le h
  rw [Nat.add_sub_cancel_left]
  induction rest generalizing n with
  | zero => simp [List.take_of_length_le]
  | succ rest ih =>
    rw [← Nat.add_assoc, fixed, List.take_append_of_le_length (by simp), ih (by omega),
      Nat.div_div_eq_div_mul, pow_succ, Nat.mul_comm]

/-- Each digit by its place. -/
lemma fixed_eq_map : fixed radix width n
    = (List.range width).map fun i => n / radix ^ (width - 1 - i) % radix := by
  induction width generalizing n with
  | zero => rfl
  | succ width ih =>
    rw [fixed, ih, List.range_succ, List.map_append, List.map_singleton, Nat.add_sub_cancel,
      Nat.sub_self, pow_zero, Nat.div_one]
    congr 1
    apply List.map_congr_left
    intro i hi
    have hplace : width - i = width - 1 - i + 1 := by
      have := List.mem_range.mp hi
      omega
    rw [Nat.div_div_eq_div_mul, hplace, pow_succ, Nat.mul_comm]

/-- Two digits for each digit of the squared radix. -/
lemma fixed_square : (fixed (radix * radix) width n).flatMap (fun d => [d / radix, d % radix])
    = fixed radix (2 * width) n := by
  induction width generalizing n with
  | zero => rfl
  | succ width ih =>
    rw [fixed, List.flatMap_append, ih, Nat.mul_succ, fixed, fixed, Nat.div_div_eq_div_mul]
    simp [Nat.mod_mul_right_div_self, Nat.mod_mod_of_dvd]

/-! ## Shortest spellings -/

lemma value_eq_ofDigits : value radix digits = Nat.ofDigits radix digits.reverse := by
  induction digits using List.reverseRecOn with
  | nil => rfl
  | append_singleton digits d ih =>
    rw [value_snoc, ih, List.reverse_append, List.reverse_singleton, List.singleton_append,
      Nat.ofDigits_cons]
    simp [Nat.mul_comm, Nat.add_comm]

lemma value_shortest (n : ℕ) : value 10 (shortest n) = n := by
  unfold shortest
  split
  · next h => rw [h]; rfl
  · rw [value_eq_ofDigits, List.reverse_reverse, Nat.ofDigits_digits]

lemma lt_of_mem_shortest {d : ℕ} (h : d ∈ shortest n) : d < 10 := by
  unfold shortest at h
  split at h
  · rw [List.mem_singleton] at h
    omega
  · exact Nat.digits_lt_base (by decide) (List.mem_reverse.mp h)

lemma shortest_ne_nil (n : ℕ) : shortest n ≠ [] := by
  unfold shortest
  split
  · simp
  · next h => simpa [Nat.digits_ne_nil_iff_ne_zero] using h

/-- No zero in front, except for zero itself. -/
def Trim (digits : List ℕ) : Prop := digits.head? = some 0 → digits = [0]

lemma trim_shortest (n : ℕ) : Trim (shortest n) := by
  intro hhead
  unfold shortest at hhead ⊢
  split
  · rfl
  · next hn =>
    rw [if_neg hn, List.head?_reverse] at hhead
    have hne : Nat.digits 10 n ≠ [] := Nat.digits_ne_nil_iff_ne_zero.mpr hn
    rw [List.getLast?_eq_some_getLast hne, Option.some.injEq] at hhead
    exact absurd hhead (Nat.getLast_digit_ne_zero 10 hn)

/-- A trim numeral is the shortest one of its value. -/
lemma shortest_value (hdigits : ∀ d ∈ digits, d < 10) (hne : digits ≠ []) (htrim : Trim digits) :
    shortest (value 10 digits) = digits := by
  by_cases hzero : digits = [0]
  · rw [hzero]
    rfl
  have hhead : digits.head? ≠ some 0 := fun h => hzero (htrim h)
  have hlast : ∀ h : digits.reverse ≠ [], digits.reverse.getLast h ≠ 0 := by
    intro h hlast
    apply hhead
    rw [← List.getLast?_reverse, List.getLast?_eq_some_getLast h, hlast]
  have hrev : Nat.digits 10 (value 10 digits) = digits.reverse := by
    rw [value_eq_ofDigits]
    exact Nat.digits_ofDigits 10 (by decide) _
      (fun d hd => hdigits d (List.mem_reverse.mp hd)) hlast
  have hpos : value 10 digits ≠ 0 := by
    intro hvalue
    rw [hvalue, Nat.digits_zero] at hrev
    exact hne (List.reverse_eq_nil_iff.mp hrev.symm)
  unfold shortest
  rw [if_neg hpos, hrev, List.reverse_reverse]

/-! ## Texts -/

/-- `char::to_digit`: the value of a digit or letter below the radix. -/
def digit? (radix : ℕ) (byte : UInt8) : Option ℕ :=
  let n := byte.toNat
  let value :=
    if 48 ≤ n ∧ n ≤ 57 then n - 48
    else if 97 ≤ n ∧ n ≤ 122 then n - 87
    else if 65 ≤ n ∧ n ≤ 90 then n - 55
    else radix
  if value < radix then some value else none

/-- The digits after those that denote `n`, for numbers below the bound. -/
def readDigits (radix bound : ℕ) : ℕ → List UInt8 → Option ℕ
  | n, [] => some n
  | n, byte :: text =>
    match digit? radix byte with
    | none => none
    | some d => if n * radix + d < bound then readDigits radix bound (n * radix + d) text else none

/-- `from_str_radix` of an unsigned integer below the bound: a plus sign may come first. -/
def fromStrRadix (radix bound : ℕ) : List UInt8 → Option ℕ
  | [] => none
  | [byte] => if byte = 43 ∨ byte = 45 then none else readDigits radix bound 0 [byte]
  | byte :: text =>
    if byte = 43 then readDigits radix bound 0 text else readDigits radix bound 0 (byte :: text)

/-- The text consists of these digits. -/
def Spells (radix : ℕ) (text : List UInt8) (digits : List ℕ) : Prop :=
  List.Forall₂ (fun byte d => digit? radix byte = some d) text digits

/-- The text is a number below the bound, perhaps with a plus sign. -/
def IsNumeral (radix bound : ℕ) (text : List UInt8) (n : ℕ) : Prop :=
  ∃ body digits, (text = body ∨ text = 43 :: body) ∧ body ≠ [] ∧ Spells radix body digits
    ∧ value radix digits = n ∧ n < bound

lemma IsNumeral.lt {bound : ℕ} {text : List UInt8} (h : IsNumeral radix bound text n) :
    n < bound := by
  obtain ⟨body, digits, -, -, -, -, hlt⟩ := h
  exact hlt

lemma digit?_lt {byte : UInt8} {d : ℕ} (h : digit? radix byte = some d) : d < radix := by
  unfold digit? at h
  dsimp only at h
  generalize hvalue : (if 48 ≤ byte.toNat ∧ byte.toNat ≤ 57 then byte.toNat - 48
    else if 97 ≤ byte.toNat ∧ byte.toNat ≤ 122 then byte.toNat - 87
    else if 65 ≤ byte.toNat ∧ byte.toNat ≤ 90 then byte.toNat - 55
    else radix) = found at h
  by_cases hlt : found < radix
  · rw [if_pos hlt, Option.some.injEq] at h
    omega
  · rw [if_neg hlt] at h
    cases h

lemma Spells.lt {text : List UInt8} (h : Spells radix text digits) : ∀ d ∈ digits, d < radix := by
  induction h with
  | nil => simp
  | cons hfirst _ ih => exact List.forall_mem_cons.mpr ⟨digit?_lt hfirst, ih⟩

lemma readDigits_eq_some {bound start : ℕ} {text : List UInt8} (hstart : start < bound) :
    readDigits radix bound start text = some n
      ↔ ∃ digits, Spells radix text digits
        ∧ digits.foldl (fun n d => n * radix + d) start = n ∧ n < bound := by
  induction text generalizing start with
  | nil =>
    rw [readDigits, Option.some.injEq]
    constructor
    · rintro rfl
      exact ⟨[], .nil, rfl, hstart⟩
    · rintro ⟨digits, hspells, hvalue, -⟩
      cases hspells
      exact hvalue
  | cons byte text ih =>
    rw [readDigits]
    cases hdigit : digit? radix byte with
    | none =>
      simp only [reduceCtorEq, false_iff]
      rintro ⟨digits, hspells, -⟩
      cases hspells with
      | cons hfirst _ =>
        rw [hdigit] at hfirst
        cases hfirst
    | some d =>
      simp only
      by_cases hlt : start * radix + d < bound
      · rw [if_pos hlt, ih hlt]
        constructor
        · rintro ⟨digits, hspells, hvalue, hn⟩
          exact ⟨d :: digits, .cons hdigit hspells, hvalue, hn⟩
        · rintro ⟨digits, hspells, hvalue, hn⟩
          cases hspells with
          | @cons _ d' _ digits hfirst hrest =>
            rw [hdigit, Option.some.injEq] at hfirst
            subst hfirst
            exact ⟨digits, hrest, hvalue, hn⟩
      · rw [if_neg hlt]
        simp only [reduceCtorEq, false_iff]
        rintro ⟨digits, hspells, hvalue, hn⟩
        cases hspells with
        | @cons _ d' _ digits hfirst hrest =>
          rw [hdigit, Option.some.injEq] at hfirst
          subst hfirst
          -- more digits do not make the number smaller
          rw [List.foldl_cons, foldl_eq] at hvalue
          by_cases hradix : radix = 0
          · have := digit?_lt hdigit
            omega
          have hpow : 0 < radix ^ digits.length := Nat.pow_pos (Nat.pos_of_ne_zero hradix)
          have : start * radix + d ≤ (start * radix + d) * radix ^ digits.length :=
            Nat.le_mul_of_pos_right _ hpow
          omega

/-- The texts that the number parsing accepts. -/
lemma fromStrRadix_eq_some {bound : ℕ} (hbound : 0 < bound) (hplus : digit? radix 43 = none)
    {text : List UInt8} :
    fromStrRadix radix bound text = some n ↔ IsNumeral radix bound text n := by
  have hread : ∀ text : List UInt8, readDigits radix bound 0 text = some n
      ↔ ∃ digits, Spells radix text digits ∧ value radix digits = n ∧ n < bound :=
    fun text => readDigits_eq_some hbound
  have hminus : digit? radix 45 = none := by
    unfold digit?
    simp
  match text with
  | [] =>
    constructor
    · intro h
      cases h
    · rintro ⟨body, digits, rfl | hbody, hne, -⟩
      · exact absurd rfl hne
      · cases hbody
  | [byte] =>
    rw [fromStrRadix]
    constructor
    · intro h
      split at h
      · cases h
      · obtain ⟨digits, hspells, hvalue⟩ := (hread [byte]).mp h
        exact ⟨[byte], digits, .inl rfl, by simp, hspells, hvalue⟩
    · rintro ⟨body, digits, rfl | hbody, hne, hspells, hvalue⟩
      · rw [if_neg, hread]
        · exact ⟨digits, hspells, hvalue⟩
        · cases hspells with
          | cons hfirst _ =>
            rintro (rfl | rfl)
            · rw [hplus] at hfirst
              cases hfirst
            · rw [hminus] at hfirst
              cases hfirst
      · cases hbody
        exact absurd rfl hne
  | byte :: other :: text =>
    rw [fromStrRadix]
    · constructor
      · intro h
        split at h
        · next hbyte =>
          subst hbyte
          obtain ⟨digits, hspells, hvalue⟩ := (hread _).mp h
          exact ⟨other :: text, digits, .inr rfl, by simp, hspells, hvalue⟩
        · obtain ⟨digits, hspells, hvalue⟩ := (hread _).mp h
          exact ⟨_, digits, .inl rfl, by simp, hspells, hvalue⟩
      · rintro ⟨body, digits, rfl | hbody, hne, hspells, hvalue⟩
        · rw [if_neg, hread]
          · exact ⟨digits, hspells, hvalue⟩
          · rintro rfl
            cases hspells with
            | cons hfirst _ =>
              rw [hplus] at hfirst
              cases hfirst
        · cases hbody
          rw [if_pos rfl, hread]
          exact ⟨digits, hspells, hvalue⟩
    · simp

end Numeral
