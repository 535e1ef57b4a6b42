import Mathlib.Tactic.Common
import Mathlib.Tactic.Ring

/-!
# Byte strings

Checked slices of a list and fixed-width little-endian integers, with the facts a codec needs:
what a slice of a concatenation is, that a slice which exists is not changed by what follows the
string, and that the integer encoding round-trips.
-/

/-! ## Checked slices -/

namespace ByteString

variable {α : Type}

/-- The slice `[start, stop)`, if it lies within the string. -/
def slice? (s : List α) (start stop : ℕ) : Option (List α) :=
  if start ≤ stop ∧ stop ≤ s.length then some ((s.take stop).drop start) else none

/-- The suffix from `start` on, if it lies within the string. -/
def from? (s : List α) (start : ℕ) : Option (List α) :=
  if start ≤ s.length then some (s.drop start) else none

lemma slice?_eq_some {s t : List α} {start stop : ℕ} :
    slice? s start stop = some t
      ↔ start ≤ stop ∧ stop ≤ s.length ∧ t = (s.take stop).drop start := by
  unfold slice?
  split
  · next h => simp [h, eq_comm]
  · next h =>
    simp only [reduceCtorEq, false_iff]
    intro hc
    exact h ⟨hc.1, hc.2.1⟩

lemma slice?_of_le {s : List α} {start stop : ℕ} (h : start ≤ stop) (hs : stop ≤ s.length) :
    slice? s start stop = some ((s.take stop).drop start) := by
  unfold slice?
  rw [if_pos ⟨h, hs⟩]

lemma slice?_eq_none {s : List α} {start stop : ℕ} (h : start ≤ stop) :
    slice? s start stop = none ↔ s.length < stop := by
  unfold slice?
  split
  · next hs => simp [hs.2]
  · next hs =>
    simp only [true_iff]
    omega

lemma length_slice? {s t : List α} {start stop : ℕ} (h : slice? s start stop = some t) :
    t.length = stop - start := by
  obtain ⟨_, hstop, rfl⟩ := slice?_eq_some.mp h
  rw [List.length_drop, List.length_take, Nat.min_eq_left hstop]

/-- A slice that exists is not changed by what follows. -/
lemma slice?_append {s : List α} {start stop : ℕ} (hs : stop ≤ s.length) (t : List α) :
    slice? (s ++ t) start stop = slice? s start stop := by
  unfold slice?
  rw [List.take_append_of_le_length hs]
  simp only [List.length_append, hs, and_true]
  congr 1
  simp only [eq_iff_iff, and_iff_left_iff_imp]
  intro _
  omega

/-- A slice does not depend on what is cut off behind it. -/
lemma slice?_take {s : List α} {start stop n : ℕ} (h : start ≤ stop) (hn : stop ≤ n) :
    slice? (s.take n) start stop = slice? s start stop := by
  by_cases hs : stop ≤ s.length
  · rw [slice?_of_le h hs, slice?_of_le h (by simp [hn, hs]), List.take_take, Nat.min_eq_left hn]
  · rw [(slice?_eq_none h).mpr (by rw [List.length_take]; omega), (slice?_eq_none h).mpr (by omega)]

/-- The slice of a concatenation that covers exactly its middle part. -/
lemma slice?_middle (a b c : List α) {start stop : ℕ} (hstart : start = a.length)
    (hstop : stop = a.length + b.length) : slice? (a ++ (b ++ c)) start stop = some b := by
  rw [slice?_of_le (by omega) (by simp only [List.length_append]; omega), hstart, hstop,
    ← List.append_assoc, ← List.length_append, List.take_left, List.drop_left]

/-- A slice followed by what comes after it. -/
lemma slice_append_drop (s : List α) {start stop : ℕ} (h : start ≤ stop) :
    (s.take stop).drop start ++ s.drop stop = s.drop start := by
  obtain ⟨n, rfl⟩ := Nat.exists_eq_add_of_le h
  rw [List.drop_take, Nat.add_sub_cancel_left, ← List.drop_drop, List.take_append_drop]

/-! ## Little-endian integers -/

/-- The `w` low bytes of `n`, least significant first. -/
def leBytes : ℕ → ℕ → List UInt8
  | 0, _ => []
  | w + 1, n => UInt8.ofNat n :: leBytes w (n / 256)

/-- The number a little-endian byte string denotes. -/
def leNat : List UInt8 → ℕ
  | [] => 0
  | b :: bs => b.toNat + 256 * leNat bs

@[simp] lemma length_leBytes (w n : ℕ) : (leBytes w n).length = w := by
  induction w generalizing n with
  | zero => rfl
  | succ w ih => simp [leBytes, ih]

lemma leNat_lt (bs : List UInt8) : leNat bs < 256 ^ bs.length := by
  induction bs with
  | nil => simp [leNat]
  | cons b bs ih =>
    have hb := b.toNat_lt
    simp only [leNat, List.length_cons, pow_succ]
    omega

/-- A number that fits is read back. -/
lemma leNat_leBytes {w n : ℕ} (h : n < 256 ^ w) : leNat (leBytes w n) = n := by
  induction w generalizing n with
  | zero =>
    simp only [pow_zero] at h
    simp [leBytes, leNat]
    omega
  | succ w ih =>
    have hdiv : n / 256 < 256 ^ w := by
      rw [pow_succ] at h
      omega
    simp only [leBytes, leNat, ih hdiv, UInt8.toNat_ofNat']
    omega

/-- A byte string is the encoding of the number it denotes. -/
lemma leBytes_leNat (bs : List UInt8) : leBytes bs.length (leNat bs) = bs := by
  induction bs with
  | nil => rfl
  | cons b bs ih =>
    have hb := b.toNat_lt
    have hdiv : (b.toNat + 256 * leNat bs) / 256 = leNat bs := by omega
    have hmod : UInt8.ofNat (b.toNat + 256 * leNat bs) = b := by
      apply UInt8.toNat_inj.mp
      rw [UInt8.toNat_ofNat']
      omega
    simp only [List.length_cons, leBytes, leNat, hdiv, hmod, ih]

end ByteString
