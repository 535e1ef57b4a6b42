import EditChain.Lib.ByteString

/-!
# The wire format of postcard

How the serialization library writes the values that messages are made of: integers as varints of
seven bits a byte, a length or a tag before what may vary, and fixed arrays as they are. Each writer
comes with a bound on what it writes.
-/

namespace Postcard

variable {α : Type}

/-- An integer in at most `k` bytes, low bits first; each byte but the last has its top bit set. -/
def varint : ℕ → ℕ → List UInt8
  | 0, _ => []
  | k + 1, n =>
    if n < 128 then [UInt8.ofNat n] else UInt8.ofNat (n % 128 + 128) :: varint k (n / 128)

/-- A `u16`. -/
def u16 (n : ℕ) : List UInt8 := varint 3 n

/-- A `u32`. -/
def u32 (n : ℕ) : List UInt8 := varint 5 n

/-- A `u64`, or a length. -/
def u64 (n : ℕ) : List UInt8 := varint 10 n

/-- A `bool`. -/
def bool (b : Bool) : List UInt8 := [if b then 1 else 0]

/-- An `Option`, after a byte that says whether there is a value. -/
def option (write : α → List UInt8) : Option α → List UInt8
  | none => [0]
  | some a => 1 :: write a

/-- A `Vec`, after its length. -/
def seq (write : α → List UInt8) (l : List α) : List UInt8 := u64 l.length ++ l.flatMap write

/-- A `String`, as its UTF-8 bytes. -/
def string (text : String) : List UInt8 :=
  u64 text.utf8ByteSize ++ text.toByteArray.data.toList

/-! ## How much is written -/

lemma length_varint_le (k n : ℕ) : (varint k n).length ≤ k := by
  induction k generalizing n with
  | zero => exact Nat.le_refl 0
  | succ k ih =>
    unfold varint
    split
    · simp
    · have hrest := ih (n / 128)
      rw [List.length_cons]
      omega

lemma length_u16_le (n : ℕ) : (u16 n).length ≤ 3 := length_varint_le 3 n

lemma length_u32_le (n : ℕ) : (u32 n).length ≤ 5 := length_varint_le 5 n

lemma length_u64_le (n : ℕ) : (u64 n).length ≤ 10 := length_varint_le 10 n

lemma length_bool (b : Bool) : (bool b).length = 1 := rfl

lemma length_option_le {write : α → List UInt8} {bound : ℕ} (h : ∀ a, (write a).length ≤ bound)
    (o : Option α) : (option write o).length ≤ bound + 1 := by
  cases o with
  | none => exact Nat.le_add_left 1 bound
  | some a => exact Nat.add_le_add_right (h a) 1

lemma length_seq_le {write : α → List UInt8} {bound : ℕ} (h : ∀ a, (write a).length ≤ bound)
    (l : List α) : (seq write l).length ≤ 10 + l.length * bound := by
  have hlength := length_u64_le l.length
  have hitems : (l.flatMap write).length ≤ l.length * bound := by
    induction l with
    | nil => simp
    | cons a l ih =>
      have ha := h a
      have hrest := ih (length_u64_le l.length)
      rw [List.flatMap_cons, List.length_append, List.length_cons, Nat.succ_mul]
      omega
  unfold seq
  rw [List.length_append]
  omega

lemma length_string_le (text : String) : (string text).length ≤ 10 + text.utf8ByteSize := by
  have hlength := length_u64_le text.utf8ByteSize
  have hbytes : text.toByteArray.data.toList.length = text.utf8ByteSize := rfl
  unfold string
  rw [List.length_append, hbytes]
  omega

end Postcard
