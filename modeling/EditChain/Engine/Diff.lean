import EditChain.Activity.Model
import EditChain.Lib.CommonEnds

/-!
# Byte comparison

The comparison of two byte sequences as one replacement. The common beginning is taken first, and
the common ending from what is left of both sides.
-/

namespace EditChain.Engine

open Activity (ByteRange)
open CommonEnds

/-- A lossless single-replacement diff. -/
inductive ByteComparison where
  /-- At least one side is not available. -/
  | unavailable
  /-- Both sides are equal. -/
  | identical
  /-- Replacing `before` with the bytes in `after` reproduces the result. -/
  | changed (before after : ByteRange)
deriving DecidableEq, Repr

/-- `u64::try_from` on a length, with the error of `invalid_input`. -/
def u64OfLength (n : ℕ) : Except IoError UInt64 :=
  if n < 2 ^ 64 then .ok (UInt64.ofNat n)
  else .error ⟨.invalidInput, "out of range integral type conversion attempted"⟩

/-- `compare_bytes`. -/
def compareBytes (before after : Option Bytes) : Except IoError ByteComparison :=
  match before, after with
  | some before, some after =>
    if before = after then return .identical
    else do
      let common := agreement before after
      let suffix := endAgreement common before after
      let start ← u64OfLength common
      let beforeStop ← u64OfLength (before.length - suffix)
      let afterStop ← u64OfLength (after.length - suffix)
      return .changed ⟨start, beforeStop⟩ ⟨start, afterStop⟩
  | _, _ => return .unavailable

end EditChain.Engine
