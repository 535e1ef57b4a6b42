import EditChain.Engine.Diff

/-!
# What a byte comparison says

Two byte sequences compare as identical exactly when they are equal. Otherwise the comparison is the
one replacement between the longest common beginning and the longest common ending after it.
-/

namespace EditChain.Engine

open Activity (ByteRange)
open CommonEnds

/-- The bytes in a range. -/
def slice (range : ByteRange) (bytes : Bytes) : Bytes :=
  (bytes.drop range.start.toNat).take (range.stop.toNat - range.start.toNat)

/-- A range of some bytes. -/
structure Within (range : ByteRange) (bytes : Bytes) : Prop where
  ordered : range.start ≤ range.stop
  bounded : range.stop.toNat ≤ bytes.length

/-- Replacing one range of `a` by one range of `b` gives `b`, and the ranges are as small as they
can be. -/
structure MinimalReplacement (a b : Bytes) (before after : ByteRange) : Prop where
  start : before.start = after.start
  within_before : Within before a
  within_after : Within after b
  rebuilds : a.take before.start.toNat ++ slice after b ++ a.drop before.stop.toNat = b
  common_start : a.take before.start.toNat = b.take before.start.toNat
  longest_start : ∀ k, k ≤ a.length → k ≤ b.length → a.take k = b.take k →
    k ≤ before.start.toNat
  common_end : a.drop before.stop.toNat = b.drop after.stop.toNat
  longest_end : ∀ k, before.start.toNat + k ≤ a.length → before.start.toNat + k ≤ b.length →
    a.drop (a.length - k) = b.drop (b.length - k) →
      k ≤ a.length - before.stop.toNat ∧ k ≤ b.length - after.stop.toNat
  nonempty : before.start < before.stop ∨ after.start < after.stop

lemma u64OfLength_of_lt {n : ℕ} (h : n < 2 ^ 64) :
    u64OfLength n = .ok (UInt64.ofNat n) ∧ (UInt64.ofNat n).toNat = n :=
  ⟨if_pos h, UInt64.toNat_ofNat_of_lt' h⟩

/-- The ranges that a comparison of different bytes returns. -/
lemma compareBytes_of_ne {a b : Bytes} (ha : a.length < 2 ^ 64) (hb : b.length < 2 ^ 64)
    (h : a ≠ b) :
    ∃ before after, compareBytes (some a) (some b) = .ok (.changed before after)
      ∧ before.start = after.start
      ∧ before.start.toNat = agreement a b
      ∧ before.stop.toNat = a.length - endAgreement (agreement a b) a b
      ∧ after.stop.toNat = b.length - endAgreement (agreement a b) a b := by
  have hle := agreement_le a b
  -- no position is beyond the end of its bytes, so all of them fit
  obtain ⟨hstart, hstartNat⟩ := u64OfLength_of_lt (n := agreement a b) (by omega)
  obtain ⟨hbefore, hbeforeNat⟩ :=
    u64OfLength_of_lt (n := a.length - endAgreement (agreement a b) a b) (by omega)
  obtain ⟨hafter, hafterNat⟩ :=
    u64OfLength_of_lt (n := b.length - endAgreement (agreement a b) a b) (by omega)
  let start := UInt64.ofNat (agreement a b)
  let beforeStop := UInt64.ofNat (a.length - endAgreement (agreement a b) a b)
  let afterStop := UInt64.ofNat (b.length - endAgreement (agreement a b) a b)
  refine ⟨⟨start, beforeStop⟩, ⟨start, afterStop⟩, ?_, rfl, hstartNat, hbeforeNat, hafterNat⟩
  show (if a = b then _ else _) = _
  rw [if_neg h]
  simp only [hstart, hbefore, hafter]
  rfl

/-- A comparison is the smallest replacement. -/
lemma minimalReplacement_of_ne {a b : Bytes} {before after : ByteRange} (h : a ≠ b)
    (hsame : before.start = after.start) (hstart : before.start.toNat = agreement a b)
    (hbefore : before.stop.toNat = a.length - endAgreement (agreement a b) a b)
    (hafter : after.stop.toNat = b.length - endAgreement (agreement a b) a b) :
    MinimalReplacement a b before after := by
  have hle := agreement_le a b
  have hend := endAgreement_le (agreement a b) a b
  have hstart' : after.start.toNat = agreement a b := by rw [← hsame, hstart]
  have hmiddle := middle_nonempty h
  constructor
  · exact hsame
  · constructor
    · rw [UInt64.le_iff_toNat_le]
      omega
    · omega
  · constructor
    · rw [UInt64.le_iff_toNat_le]
      omega
    · omega
  · unfold slice
    rw [hstart, hstart', hbefore, hafter]
    exact replace_middle a b
  · rw [hstart]
    exact take_agreement a b
  · intro k hka hkb htake
    rw [hstart]
    exact le_agreement hka hkb htake
  · rw [hbefore, hafter]
    exact drop_endAgreement (agreement a b) a b
  · intro k hka hkb hdrop
    have hk : k ≤ endAgreement (agreement a b) a b :=
      le_endAgreement (by omega) (by omega) hdrop
    omega
  · rw [UInt64.lt_iff_toNat_lt, UInt64.lt_iff_toNat_lt]
    omega

/-- A comparison says whether the bytes are equal and otherwise gives the smallest replacement. -/
theorem compareBytes_lossless (a b : Bytes) (ha : a.length < 2 ^ 64) (hb : b.length < 2 ^ 64) :
    (compareBytes (some a) (some b) = .ok .identical ↔ a = b)
      ∧ (a ≠ b → ∃ before after, compareBytes (some a) (some b) = .ok (.changed before after)
        ∧ MinimalReplacement a b before after) := by
  constructor
  · constructor
    · intro hidentical
      by_contra hne
      obtain ⟨before, after, hchanged, -⟩ := compareBytes_of_ne ha hb hne
      rw [hidentical] at hchanged
      cases hchanged
    · intro heq
      rw [heq]
      exact if_pos rfl
  · intro hne
    obtain ⟨before, after, hchanged, hsame, hstart, hbefore, hafter⟩ :=
      compareBytes_of_ne ha hb hne
    exact ⟨before, after, hchanged,
      minimalReplacement_of_ne hne hsame hstart hbefore hafter⟩

/-- `aa` becomes `aaa`: the two longest common ends would overlap. -/
theorem compareBytes_lossless_overlap :
    ∃ before after, compareBytes (some [97, 97]) (some [97, 97, 97]) = .ok (.changed before after)
      ∧ MinimalReplacement [97, 97] [97, 97, 97] before after :=
  (compareBytes_lossless [97, 97] [97, 97, 97] (by decide) (by decide)).2 (by decide)

end EditChain.Engine
