import EditChain.Core.Ids
import EditChain.Migration.RecordTheorems

/-!
# Which spellings are read

What each parser accepts, in terms of the digits of the text, and that reading and writing are
inverse to each other. The number parsing of the standard library accepts a plus sign and zeros in
front, so that an identity, a source address and a commit key are also read from spellings that are
never written.
-/

namespace EditChain.Core

open Activity (GitObjectFormat GitOid)
open Migration (SourceId AddressHash messageAddresses)
open Numeral

/-! ## Digits -/

lemma digit?_digitByte {d : ℕ} (h : d < 16) : digit? 16 (digitByte d) = some d := by
  revert d
  decide

lemma digit?_digitByte_ten {d : ℕ} (h : d < 10) : digit? 10 (digitByte d) = some d := by
  revert d
  decide

/-- A digit is a decimal one or a letter in either case. -/
lemma digit?_eq_some {radix : ℕ} {byte : UInt8} {d : ℕ} :
    digit? radix byte = some d
      ↔ d < radix ∧ ((48 ≤ byte.toNat ∧ byte.toNat ≤ 57 ∧ d + 48 = byte.toNat)
        ∨ (97 ≤ byte.toNat ∧ byte.toNat ≤ 122 ∧ d + 87 = byte.toNat)
        ∨ (65 ≤ byte.toNat ∧ byte.toNat ≤ 90 ∧ d + 55 = byte.toNat)) := by
  unfold digit?
  dsimp only
  by_cases hdecimal : 48 ≤ byte.toNat ∧ byte.toNat ≤ 57
  · rw [if_pos hdecimal]
    by_cases hlt : byte.toNat - 48 < radix
    · rw [if_pos hlt, Option.some.injEq]
      omega
    · rw [if_neg hlt]
      simp only [reduceCtorEq, false_iff]
      omega
  · rw [if_neg hdecimal]
    by_cases hsmall : 97 ≤ byte.toNat ∧ byte.toNat ≤ 122
    · rw [if_pos hsmall]
      by_cases hlt : byte.toNat - 87 < radix
      · rw [if_pos hlt, Option.some.injEq]
        omega
      · rw [if_neg hlt]
        simp only [reduceCtorEq, false_iff]
        omega
    · rw [if_neg hsmall]
      by_cases hlarge : 65 ≤ byte.toNat ∧ byte.toNat ≤ 90
      · rw [if_pos hlarge]
        by_cases hlt : byte.toNat - 55 < radix
        · rw [if_pos hlt, Option.some.injEq]
          omega
        · rw [if_neg hlt]
          simp only [reduceCtorEq, false_iff]
          omega
      · rw [if_neg hlarge, if_neg (Nat.lt_irrefl radix)]
        simp only [reduceCtorEq, false_iff]
        omega

lemma toNat_digitByte {d : ℕ} (h : d < 16) :
    (digitByte d).toNat = if d < 10 then 48 + d else 87 + d := by
  unfold digitByte
  split <;> rw [UInt8.toNat_ofNat'] <;> omega

lemma toNat_lower (byte : UInt8) : (lower byte).toNat
    = if 65 ≤ byte.toNat ∧ byte.toNat ≤ 90 then byte.toNat + 32 else byte.toNat := by
  unfold lower
  by_cases hupper : 65 ≤ byte ∧ byte ≤ 90
  · have hbounds : 65 ≤ byte.toNat ∧ byte.toNat ≤ 90 := hupper
    rw [if_pos hupper, if_pos hbounds, UInt8.toNat_add]
    show (byte.toNat + 32) % 2 ^ 8 = _
    omega
  · have hbounds : ¬ (65 ≤ byte.toNat ∧ byte.toNat ≤ 90) := hupper
    rw [if_neg hupper, if_neg hbounds]

/-- Written again, a digit is in lower case. -/
lemma digitByte_of_digit? {byte : UInt8} {d : ℕ} (h : digit? 16 byte = some d) :
    digitByte d = lower byte := by
  obtain ⟨hd, hcases⟩ := digit?_eq_some.mp h
  apply UInt8.toNat_inj.mp
  rw [toNat_digitByte hd, toNat_lower]
  split <;> split <;> omega

lemma digitByte_ten_of_digit? {byte : UInt8} {d : ℕ} (h : digit? 10 byte = some d) :
    digitByte d = byte := by
  obtain ⟨hd, hcases⟩ := digit?_eq_some.mp h
  apply UInt8.toNat_inj.mp
  rw [toNat_digitByte (by omega), if_pos hd]
  omega

lemma lower_eq_digitByte {byte : UInt8} {d : ℕ} (hd : d < 16) (h : lower byte = digitByte d) :
    digit? 16 byte = some d := by
  have hnat : (lower byte).toNat = if d < 10 then 48 + d else 87 + d := by
    rw [h, toNat_digitByte hd]
  rw [toNat_lower] at hnat
  rw [digit?_eq_some]
  split at hnat <;> split at hnat <;> omega

/-! ## Texts of digits -/

lemma spells_map {digits : List ℕ} (h : ∀ d ∈ digits, d < 16) :
    Spells 16 (digits.map digitByte) digits := by
  induction digits with
  | nil => exact .nil
  | cons d digits ih =>
    obtain ⟨hd, hrest⟩ := List.forall_mem_cons.mp h
    exact .cons (digit?_digitByte hd) (ih hrest)

/-- Hexadecimal digits written again are in lower case. -/
lemma map_digitByte_of_spells {text : Bytes} {digits : List ℕ} (h : Spells 16 text digits) :
    digits.map digitByte = toAsciiLowercase text := by
  induction h with
  | nil => rfl
  | cons hfirst _ ih =>
    rw [List.map_cons, ih, digitByte_of_digit? hfirst]
    rfl

lemma map_digitByte_ten_of_spells {text : Bytes} {digits : List ℕ} (h : Spells 10 text digits) :
    digits.map digitByte = text := by
  induction h with
  | nil => rfl
  | cons hfirst _ ih => rw [List.map_cons, ih, digitByte_ten_of_digit? hfirst]

lemma exists_spells_iff {text : Bytes} :
    (∃ digits, Spells 16 text digits) ↔ text.all IdQuery.isHexDigit = true := by
  induction text with
  | nil => exact ⟨fun _ => rfl, fun _ => ⟨[], .nil⟩⟩
  | cons byte text ih =>
    rw [List.all_cons, Bool.and_eq_true, ← ih]
    constructor
    · rintro ⟨digits, hspells⟩
      cases hspells with
      | cons hfirst hrest => exact ⟨by simp [IdQuery.isHexDigit, hfirst], _, hrest⟩
    · rintro ⟨hfirst, digits, hrest⟩
      obtain ⟨d, hd⟩ := Option.isSome_iff_exists.mp hfirst
      exact ⟨d :: digits, .cons hd hrest⟩

lemma not_mem_of_spells {radix : ℕ} {text : Bytes} {digits : List ℕ} {byte : UInt8}
    (h : Spells radix text digits) (hbyte : digit? radix byte = none) : byte ∉ text := by
  induction h with
  | nil => simp
  | cons hfirst _ ih =>
    rw [List.mem_cons, not_or]
    refine ⟨?_, ih⟩
    rintro rfl
    rw [hbyte] at hfirst
    cases hfirst

/-! ## Pairs of digits -/

/-- A text in pairs: digits behind bytes that stand for digits. -/
inductive Paired (lead : UInt8 → ℕ → Prop) : Bytes → List ℕ → Prop where
  | nil : Paired lead [] []
  | cons {first second : UInt8} {d e : ℕ} {text : Bytes} {digits : List ℕ}
      (leads : lead first d) (digit : digit? 16 second = some e) (rest : Paired lead text digits) :
      Paired lead (first :: second :: text) (d :: e :: digits)

/-- A hexadecimal digit. -/
def Hex (byte : UInt8) (d : ℕ) : Prop := digit? 16 byte = some d

/-- A hexadecimal digit, or a plus sign in the place of a zero. -/
def HexOrPlus (byte : UInt8) (d : ℕ) : Prop := Hex byte d ∨ (byte = 43 ∧ d = 0)

variable {lead : UInt8 → ℕ → Prop} {text : Bytes} {digits : List ℕ}

lemma Paired.length_eq (h : Paired lead text digits) : digits.length = text.length := by
  induction h with
  | nil => rfl
  | cons _ _ _ ih => simp [ih]

lemma Paired.lt (hlead : ∀ byte d, lead byte d → d < 16) (h : Paired lead text digits) :
    ∀ d ∈ digits, d < 16 := by
  induction h with
  | nil => simp
  | cons hfirst hsecond _ ih =>
    exact List.forall_mem_cons.mpr
      ⟨hlead _ _ hfirst, List.forall_mem_cons.mpr ⟨digit?_lt hsecond, ih⟩⟩

lemma HexOrPlus.lt {byte : UInt8} {d : ℕ} (h : HexOrPlus byte d) : d < 16 := by
  rcases h with h | ⟨-, rfl⟩
  · exact digit?_lt h
  · decide

/-- Without a plus sign, the pairs are hexadecimal digits. -/
lemma Paired.spells (h : Paired HexOrPlus text digits) (hplus : 43 ∉ text) :
    Spells 16 text digits := by
  induction h with
  | nil => exact .nil
  | cons hfirst hsecond _ ih =>
    rcases hfirst with hfirst | ⟨rfl, -⟩
    · refine .cons hfirst (.cons hsecond (ih fun hmem => hplus ?_))
      exact List.mem_cons_of_mem _ (List.mem_cons_of_mem _ hmem)
    · exact absurd List.mem_cons_self hplus

lemma Paired.hex_spells (h : Paired Hex text digits) : Spells 16 text digits := by
  induction h with
  | nil => exact .nil
  | cons hfirst hsecond _ ih => exact .cons hfirst (.cons hsecond ih)

/-- An even number of hexadecimal digits is a text in pairs. -/
lemma paired_of_spells (hlead : ∀ byte d, digit? 16 byte = some d → lead byte d) {k : ℕ}
    (hlength : text.length = 2 * k) (h : Spells 16 text digits) : Paired lead text digits := by
  induction k generalizing text digits with
  | zero =>
    cases h with
    | nil => exact .nil
    | cons _ _ => simp at hlength
  | succ k ih =>
    cases h with
    | nil => simp at hlength
    | cons hfirst hrest =>
      cases hrest with
      | nil =>
        rw [List.length_singleton] at hlength
        omega
      | cons hsecond hrest =>
        refine .cons (hlead _ _ hfirst) hsecond (ih ?_ hrest)
        simp only [List.length_cons] at hlength
        omega

lemma bytesValue_cons (byte : UInt8) (bytes : Bytes) :
    bytesValue (byte :: bytes) = byte.toNat * 256 ^ bytes.length + bytesValue bytes := by
  unfold bytesValue
  rw [List.map_cons, ← List.singleton_append, value_append, List.length_map]
  simp [value]

lemma map_toNat_lt (bytes : Bytes) : ∀ d ∈ bytes.map UInt8.toNat, d < 256 := by
  intro d hd
  obtain ⟨byte, -, rfl⟩ := List.mem_map.mp hd
  exact byte.toNat_lt

lemma bytesValue_lt (bytes : Bytes) : bytesValue bytes < 256 ^ bytes.length := by
  have := value_lt (map_toNat_lt bytes)
  rwa [List.length_map] at this

section Read

variable {read : UInt8 × UInt8 → Option UInt8}

/-- Reading pair by pair reads the number that the digits denote. -/
lemma mapM_of_paired (hread : ∀ first second d e, lead first d → digit? 16 second = some e
      → ∃ byte, read (first, second) = some byte ∧ byte.toNat = d * 16 + e)
    (h : Paired lead text digits) :
    ∃ bytes, (pairs text).mapM read = some bytes ∧ 2 * bytes.length = text.length
      ∧ bytesValue bytes = value 16 digits := by
  induction h with
  | nil => exact ⟨[], rfl, rfl, rfl⟩
  | @cons first second d e text digits hfirst hsecond hrest ih =>
    obtain ⟨bytes, hbytes, hlength, hvalue⟩ := ih
    obtain ⟨byte, hbyte, hnat⟩ := hread first second d e hfirst hsecond
    refine ⟨byte :: bytes, ?_, ?_, ?_⟩
    · show ((first, second) :: pairs text).mapM read = _
      rw [List.mapM_cons, hbyte, hbytes]
      rfl
    · simp only [List.length_cons]
      omega
    · have hdigits : digits.length = 2 * bytes.length := by rw [hrest.length_eq, hlength]
      have happend : d :: e :: digits = [d, e] ++ digits := rfl
      have hpair : value 16 [d, e] = d * 16 + e := by simp [value]
      rw [bytesValue_cons, happend, value_append, hdigits, pow_mul, hvalue, hnat, hpair]
      norm_num

lemma paired_of_mapM (hread : ∀ first second byte, read (first, second) = some byte
      → ∃ d e, lead first d ∧ digit? 16 second = some e) {k : ℕ}
    (hlength : text.length = 2 * k) {bytes : Bytes}
    (h : (pairs text).mapM read = some bytes) : ∃ digits, Paired lead text digits := by
  induction k generalizing text bytes with
  | zero =>
    have hempty : text = [] := List.length_eq_zero_iff.mp (by omega)
    rw [hempty]
    exact ⟨[], .nil⟩
  | succ k ih =>
    match text with
    | [] => simp at hlength
    | [_] =>
      rw [List.length_singleton] at hlength
      omega
    | first :: second :: text =>
      have hcons : ((first, second) :: pairs text).mapM read = some bytes := h
      rw [List.mapM_cons] at hcons
      obtain ⟨byte, hbyte, hcons⟩ := Option.bind_eq_some_iff.mp hcons
      obtain ⟨rest, hrest, -⟩ := Option.bind_eq_some_iff.mp hcons
      obtain ⟨d, e, hfirst, hsecond⟩ := hread _ _ _ hbyte
      simp only [List.length_cons] at hlength
      obtain ⟨digits, hpaired⟩ := ih (by omega) hrest
      exact ⟨d :: e :: digits, .cons hfirst hsecond hpaired⟩

end Read

lemma HexOrPlus.toNat_lt {byte : UInt8} {d : ℕ} (h : HexOrPlus byte d) : byte.toNat < 128 := by
  rcases h with h | ⟨rfl, -⟩
  · obtain ⟨hd, hcases⟩ := digit?_eq_some.mp h
    omega
  · decide

/-- A pair is read as a number with a plus sign or two digits. -/
lemma readPair_of_digits {first second : UInt8} {d e : ℕ} (hfirst : HexOrPlus first d)
    (hsecond : digit? 16 second = some e) :
    ∃ byte, readPair (first, second) = some byte ∧ byte.toNat = d * 16 + e := by
  have hd := hfirst.lt
  have he := digit?_lt hsecond
  have hutf8 : isUtf8Pair (first, second) = true := by
    have hleft : first < 128 := hfirst.toNat_lt
    have hright : second < 128 := HexOrPlus.toNat_lt (.inl hsecond)
    simp [isUtf8Pair, hleft, hright]
  have hread : fromStrRadix 16 256 [first, second] = some (d * 16 + e) := by
    rw [fromStrRadix_eq_some (by decide) (by decide)]
    rcases hfirst with hfirst | ⟨rfl, rfl⟩
    · exact ⟨[first, second], [d, e], .inl rfl, by simp, .cons hfirst (.cons hsecond .nil),
        by simp [value], by omega⟩
    · exact ⟨[second], [e], .inr rfl, by simp, .cons hsecond .nil, by simp [value], by omega⟩
  refine ⟨UInt8.ofNat (d * 16 + e), ?_, ?_⟩
  · unfold readPair
    rw [if_pos hutf8, hread]
    rfl
  · rw [UInt8.toNat_ofNat']
    omega

lemma digits_of_readPair {first second byte : UInt8}
    (h : readPair (first, second) = some byte) :
    ∃ d e, HexOrPlus first d ∧ digit? 16 second = some e := by
  unfold readPair at h
  split at h
  · obtain ⟨n, hn, -⟩ := Option.map_eq_some_iff.mp h
    obtain ⟨body, digits, hbody, hne, hspells, -⟩ :=
      (fromStrRadix_eq_some (by decide) (by decide)).mp hn
    rcases hbody with rfl | hbody
    · cases hspells with
      | cons hfirst hrest =>
        cases hrest with
        | cons hsecond _ => exact ⟨_, _, .inl hfirst, hsecond⟩
    · cases hbody
      cases hspells with
      | cons hsecond _ => exact ⟨0, _, .inr ⟨rfl, rfl⟩, hsecond⟩
  · cases h

lemma hexNibble_eq_some {byte value : UInt8} :
    hexNibble byte = some value ↔ Hex byte value.toNat := by
  unfold Hex
  rw [digit?_eq_some]
  unfold hexNibble
  have hlt := byte.toNat_lt
  have hvalue := value.toNat_lt
  by_cases hdecimal : 48 ≤ byte ∧ byte ≤ 57
  · have hbounds : 48 ≤ byte.toNat ∧ byte.toNat ≤ 57 := hdecimal
    have hnat : (byte - 48).toNat = byte.toNat - 48 := UInt8.toNat_sub_of_le _ _ hdecimal.1
    rw [if_pos hdecimal, Option.some.injEq, ← UInt8.toNat_inj, hnat]
    omega
  · have hbounds : ¬ (48 ≤ byte.toNat ∧ byte.toNat ≤ 57) := hdecimal
    rw [if_neg hdecimal]
    by_cases hsmall : 97 ≤ byte ∧ byte ≤ 102
    · have hletter : 97 ≤ byte.toNat ∧ byte.toNat ≤ 102 := hsmall
      have hnat : (byte - 97 + 10).toNat = byte.toNat - 87 := by
        rw [UInt8.toNat_add, UInt8.toNat_sub_of_le _ _ hsmall.1]
        show (byte.toNat - 97 + 10) % 2 ^ 8 = _
        omega
      rw [if_pos hsmall, Option.some.injEq, ← UInt8.toNat_inj, hnat]
      omega
    · have hletter : ¬ (97 ≤ byte.toNat ∧ byte.toNat ≤ 102) := hsmall
      rw [if_neg hsmall]
      by_cases hlarge : 65 ≤ byte ∧ byte ≤ 70
      · have hcapital : 65 ≤ byte.toNat ∧ byte.toNat ≤ 70 := hlarge
        have hnat : (byte - 65 + 10).toNat = byte.toNat - 55 := by
          rw [UInt8.toNat_add, UInt8.toNat_sub_of_le _ _ hlarge.1]
          show (byte.toNat - 65 + 10) % 2 ^ 8 = _
          omega
        rw [if_pos hlarge, Option.some.injEq, ← UInt8.toNat_inj, hnat]
        omega
      · have hcapital : ¬ (65 ≤ byte.toNat ∧ byte.toNat ≤ 70) := hlarge
        rw [if_neg hlarge]
        simp only [reduceCtorEq, false_iff]
        omega

lemma toNat_join {hi lo : UInt8} (hhi : hi.toNat < 16) (hlo : lo.toNat < 16) :
    ((hi <<< 4) ||| lo).toNat = hi.toNat * 16 + lo.toNat := by
  rw [UInt8.toNat_or, UInt8.toNat_shiftLeft]
  show (hi.toNat <<< 4 % 2 ^ 8) ||| lo.toNat = _
  have hshift : hi.toNat <<< 4 = hi.toNat * 16 := Nat.shiftLeft_eq _ _
  have hjoin := Nat.shiftLeft_add_eq_or_of_lt (i := 4) (b := lo.toNat) (by omega) hi.toNat
  rw [Nat.mod_eq_of_lt (by omega), ← hjoin, hshift]

lemma nibbles_of_digits {first second : UInt8} {d e : ℕ} (hfirst : Hex first d)
    (hsecond : digit? 16 second = some e) :
    ∃ byte, nibbles (first, second) = some byte ∧ byte.toNat = d * 16 + e := by
  have hd := digit?_lt hfirst
  have he := digit?_lt hsecond
  have hdNat : (UInt8.ofNat d).toNat = d := by
    rw [UInt8.toNat_ofNat']
    omega
  have heNat : (UInt8.ofNat e).toNat = e := by
    rw [UInt8.toNat_ofNat']
    omega
  have hhi : hexNibble first = some (.ofNat d) := hexNibble_eq_some.mpr (by rwa [hdNat])
  have hlo : hexNibble second = some (.ofNat e) := hexNibble_eq_some.mpr (by rwa [heNat])
  refine ⟨(UInt8.ofNat d <<< 4) ||| UInt8.ofNat e, ?_, ?_⟩
  · unfold nibbles
    rw [hhi, hlo]
    rfl
  · rw [toNat_join (by omega) (by omega), hdNat, heNat]

lemma digits_of_nibbles {first second byte : UInt8}
    (h : nibbles (first, second) = some byte) :
    ∃ d e, Hex first d ∧ digit? 16 second = some e := by
  obtain ⟨hi, hhi, h⟩ := Option.bind_eq_some_iff.mp h
  obtain ⟨lo, hlo, -⟩ := Option.bind_eq_some_iff.mp h
  exact ⟨hi.toNat, lo.toNat, hexNibble_eq_some.mp hhi, hexNibble_eq_some.mp hlo⟩

/-! ## Operation identities -/

lemma idBytes_eq (id : OpId) : idBytes id = (fixed 256 32 id.toNat).map UInt8.ofNat := by
  unfold idBytes
  rw [fixed_eq_map, List.map_map]
  apply List.map_congr_left
  intro i _
  apply UInt8.toNat_inj.mp
  show (UInt8.ofNat (id.toNat / 256 ^ (31 - i))).toNat
    = (UInt8.ofNat (id.toNat / 256 ^ (31 - i) % 256)).toNat
  rw [UInt8.toNat_ofNat', UInt8.toNat_ofNat']
  omega

lemma length_idBytes (id : OpId) : (idBytes id).length = 32 := by simp [idBytes]

/-- Two digits for each byte. -/
lemma flatMap_hexByte {bytes : List ℕ} (h : ∀ d ∈ bytes, d < 256) :
    (bytes.map UInt8.ofNat).flatMap hexByte
      = (bytes.flatMap fun d => [d / 16, d % 16]).map digitByte := by
  induction bytes with
  | nil => rfl
  | cons d bytes ih =>
    obtain ⟨hd, hrest⟩ := List.forall_mem_cons.mp h
    rw [List.map_cons, List.flatMap_cons, List.flatMap_cons, List.map_append, ih hrest]
    unfold hexByte
    rw [UInt8.toNat_ofNat', Nat.mod_eq_of_lt hd]
    rfl

/-- The spelling of an identity is its 64 hexadecimal digits. -/
lemma displayId_eq (id : OpId) : displayId id = (fixed 16 64 id.toNat).map digitByte := by
  have hsquare : (fixed 256 32 id.toNat).flatMap (fun d => [d / 16, d % 16])
      = fixed 16 64 id.toNat := fixed_square
  unfold displayId
  rw [idBytes_eq, flatMap_hexByte fun d hd => lt_of_mem_fixed (by decide) hd, hsquare]

/-- The identity that 64 hexadecimal digits denote is spelled with them. -/
lemma displayId_value {digits : List ℕ} (hlength : digits.length = 64) (hlt : ∀ d ∈ digits, d < 16) :
    displayId (BitVec.ofNat 256 (value 16 digits)) = digits.map digitByte := by
  have hvalue := value_lt hlt
  rw [hlength] at hvalue
  have hfixed := fixed_value (by decide) hlt
  rw [hlength] at hfixed
  rw [displayId_eq, BitVec.toNat_ofNat, Nat.mod_eq_of_lt (lt_of_lt_of_eq hvalue (by norm_num)),
    hfixed]

lemma length_displayId (id : OpId) : (displayId id).length = 64 := by
  rw [displayId_eq, List.length_map, length_fixed]

lemma spells_displayId (id : OpId) : Spells 16 (displayId id) (fixed 16 64 id.toNat) := by
  rw [displayId_eq]
  exact spells_map fun d hd => lt_of_mem_fixed (by decide) hd

section Reading

variable [AddressHash]

/-- A text without a colon is read when it consists of 32 pairs, a plus sign allowed in front of a
single digit. -/
lemma idFromDisplayStr_eq_some (hcolon : 58 ∉ text) {id : OpId} :
    idFromDisplayStr text = some id
      ↔ text.length = 64 ∧ ∃ digits, Paired HexOrPlus text digits
        ∧ id = BitVec.ofNat 256 (value 16 digits) := by
  unfold idFromDisplayStr
  rw [if_neg hcolon]
  by_cases hlength : text.length = 64
  · rw [if_neg (not_not_intro hlength)]
    constructor
    · intro h
      obtain ⟨bytes, hbytes, rfl⟩ := Option.map_eq_some_iff.mp h
      obtain ⟨digits, hpaired⟩ := paired_of_mapM
        (fun _ _ _ => digits_of_readPair) (show text.length = 2 * 32 by omega) hbytes
      obtain ⟨found, hfound, -, hvalue⟩ :=
        mapM_of_paired (fun _ _ _ _ => readPair_of_digits) hpaired
      rw [hbytes, Option.some.injEq] at hfound
      exact ⟨hlength, digits, hpaired, by rw [idOfBytes_eq, hfound, hvalue]⟩
    · rintro ⟨-, digits, hpaired, rfl⟩
      obtain ⟨bytes, hbytes, -, hvalue⟩ :=
        mapM_of_paired (fun _ _ _ _ => readPair_of_digits) hpaired
      rw [hbytes, Option.map_some, idOfBytes_eq, hvalue]
  · rw [if_pos hlength]
    constructor
    · intro h
      cases h
    · rintro ⟨hlength', -⟩
      exact absurd hlength' hlength

/-- Full hexadecimal digits in either case. -/
lemma idFromDisplayStr_of_spells (hlength : text.length = 64) (h : Spells 16 text digits) :
    idFromDisplayStr text = some (BitVec.ofNat 256 (value 16 digits)) := by
  have hcolon : 58 ∉ text := not_mem_of_spells h (by decide)
  have hpaired : Paired HexOrPlus text digits :=
    paired_of_spells (fun _ _ h => .inl h) (show text.length = 2 * 32 by omega) h
  exact (idFromDisplayStr_eq_some hcolon).mpr ⟨hlength, digits, hpaired, rfl⟩

/-- What is written is read back. -/
lemma idFromDisplayStr_displayId (id : OpId) : idFromDisplayStr (displayId id) = some id := by
  rw [idFromDisplayStr_of_spells (length_displayId id) (spells_displayId id), value_fixed,
    Nat.mod_eq_of_lt (lt_of_lt_of_eq id.isLt (by norm_num)), BitVec.ofNat_toNat, BitVec.setWidth_eq]

end Reading

/-! ## Numbers -/

/-- No plus sign, and no zero in front of other digits. -/
def Unadorned (text : Bytes) : Prop := 43 ∉ text ∧ (text.head? = some 48 → text = [48])

/-- A decimal number of `width` bits, perhaps with a plus sign or zeros in front. -/
def Number (width : ℕ) (text : Bytes) : Prop := ∃ n, IsNumeral 10 (2 ^ width) text n

variable {width n : ℕ}

lemma parseUnsigned_eq_some : parseUnsigned width text = some n ↔ IsNumeral 10 (2 ^ width) text n :=
  fromStrRadix_eq_some (Nat.pow_pos (by decide)) (by decide)

lemma spells_decimal (n : ℕ) : Spells 10 (decimal n) (shortest n) := by
  have hlt : ∀ d ∈ shortest n, d < 10 := fun d hd => lt_of_mem_shortest hd
  unfold decimal
  generalize shortest n = digits at hlt
  induction digits with
  | nil => exact .nil
  | cons d digits ih =>
    obtain ⟨hd, hrest⟩ := List.forall_mem_cons.mp hlt
    exact .cons (digit?_digitByte_ten hd) (ih hrest)

lemma decimal_ne_nil (n : ℕ) : decimal n ≠ [] := by
  unfold decimal
  simpa using shortest_ne_nil n

lemma colon_not_mem_decimal (n : ℕ) : 58 ∉ decimal n :=
  not_mem_of_spells (spells_decimal n) (by decide)

lemma parseUnsigned_decimal (hn : n < 2 ^ width) : parseUnsigned width (decimal n) = some n :=
  parseUnsigned_eq_some.mpr
    ⟨decimal n, shortest n, .inl rfl, decimal_ne_nil n, spells_decimal n, value_shortest n, hn⟩

lemma colon_not_mem_of_numeral {bound : ℕ} (h : IsNumeral 10 bound text n) : 58 ∉ text := by
  obtain ⟨body, digits, hbody, -, hspells, -⟩ := h
  have hcolon := not_mem_of_spells hspells (show digit? 10 58 = none by decide)
  rcases hbody with rfl | rfl
  · exact hcolon
  · rw [List.mem_cons, not_or]
    exact ⟨by decide, hcolon⟩

/-- A number without adornments is written as it is displayed. -/
lemma eq_decimal_of_unadorned {bound : ℕ} (h : IsNumeral 10 bound text n) (hplain : Unadorned text) :
    text = decimal n := by
  obtain ⟨body, digits, hbody, hne, hspells, rfl, -⟩ := h
  rcases hbody with rfl | rfl
  · have hdigits : digits ≠ [] := by
      rintro rfl
      cases hspells
      exact hne rfl
    have htrim : Trim digits := by
      intro hhead
      -- a zero digit is written as one
      cases hspells with
      | nil => cases hhead
      | @cons byte d rest digits hfirst hrest =>
        rw [List.head?_cons, Option.some.injEq] at hhead
        subst hhead
        have hbyte : byte = 48 := (digitByte_ten_of_digit? hfirst).symm
        have hsingle := hplain.2 (by rw [hbyte]; rfl)
        obtain ⟨-, rfl⟩ := List.cons.inj hsingle
        cases hrest
        rfl
    unfold decimal
    rw [shortest_value hspells.lt hdigits htrim, map_digitByte_ten_of_spells hspells]
  · exact absurd List.mem_cons_self hplain.1

lemma unadorned_decimal (n : ℕ) : Unadorned (decimal n) := by
  refine ⟨not_mem_of_spells (spells_decimal n) (by decide), fun hhead => ?_⟩
  have htrim := trim_shortest n
  have hlt : ∀ d ∈ shortest n, d < 10 := fun d hd => lt_of_mem_shortest hd
  unfold decimal at hhead ⊢
  generalize shortest n = digits at hhead htrim hlt
  cases digits with
  | nil => cases hhead
  | cons d digits =>
    rw [List.map_cons, List.head?_cons, Option.some.injEq] at hhead
    have hd : d < 10 := hlt d List.mem_cons_self
    have hzero : d = 0 := by
      have hnat : (digitByte d).toNat = 48 := by rw [hhead]; rfl
      rw [toNat_digitByte (by omega), if_pos hd] at hnat
      omega
    have hsingle := htrim (by rw [hzero]; rfl)
    rw [hsingle]
    rfl

/-! ## Source addresses -/

/-- Three numbers between colons. -/
def Address (text node boot seq : Bytes) : Prop :=
  text = node ++ 58 :: (boot ++ 58 :: seq) ∧ Number 64 node ∧ Number 32 boot ∧ Number 64 seq

lemma Number.colon_not_mem (h : Number width text) : 58 ∉ text := by
  obtain ⟨n, hn⟩ := h
  exact colon_not_mem_of_numeral hn

lemma splitOn_of_colons {node boot seq : Bytes} (hnode : 58 ∉ node) (hboot : 58 ∉ boot)
    (hseq : 58 ∉ seq) :
    (node ++ 58 :: (boot ++ 58 :: seq)).splitOn 58 = [node, boot, seq] := by
  rw [List.splitOn_append_cons_self_of_not_mem hnode,
    List.splitOn_append_cons_self_of_not_mem hboot, List.splitOn_eq_singleton hseq]

lemma of_splitOn {node boot seq : Bytes} (h : text.splitOn 58 = [node, boot, seq]) :
    text = node ++ 58 :: (boot ++ 58 :: seq) := by
  have hjoin : [58].intercalate (text.splitOn 58) = text := List.intercalate_splitOn 58
  rw [h] at hjoin
  rw [← hjoin]
  simp [List.intercalate]

/-- An address is read when it consists of three numbers. -/
lemma fromDisplayStr_of_address {node boot seq : Bytes} {n b q : ℕ}
    (hnode : IsNumeral 10 (2 ^ 64) node n) (hboot : IsNumeral 10 (2 ^ 32) boot b)
    (hseq : IsNumeral 10 (2 ^ 64) seq q) :
    SourceId.fromDisplayStr (node ++ 58 :: (boot ++ 58 :: seq))
      = some ⟨.ofNat n, .ofNat b, .ofNat q⟩ := by
  unfold SourceId.fromDisplayStr
  rw [splitOn_of_colons (colon_not_mem_of_numeral hnode) (colon_not_mem_of_numeral hboot)
    (colon_not_mem_of_numeral hseq)]
  simp only [parseUnsigned_eq_some.mpr hnode, parseUnsigned_eq_some.mpr hboot,
    parseUnsigned_eq_some.mpr hseq]
  rfl

lemma address_of_fromDisplayStr {source : SourceId} (h : SourceId.fromDisplayStr text = some source) :
    ∃ node boot seq, Address text node boot seq := by
  unfold SourceId.fromDisplayStr at h
  split at h
  · next node boot seq hsplit =>
    obtain ⟨n, hn, h⟩ := Option.bind_eq_some_iff.mp h
    obtain ⟨b, hb, h⟩ := Option.bind_eq_some_iff.mp h
    obtain ⟨q, hq, -⟩ := Option.bind_eq_some_iff.mp h
    exact ⟨node, boot, seq, of_splitOn hsplit, ⟨n, parseUnsigned_eq_some.mp hn⟩,
      ⟨b, parseUnsigned_eq_some.mp hb⟩, ⟨q, parseUnsigned_eq_some.mp hq⟩⟩
  · cases h

/-- Reading inverts the display of a source address. -/
lemma fromDisplayStr_display (source : SourceId) :
    SourceId.fromDisplayStr source.display = some source := by
  have hparts : ∀ {width n : ℕ}, n < 2 ^ width → IsNumeral 10 (2 ^ width) (decimal n) n :=
    fun hn => parseUnsigned_eq_some.mp (parseUnsigned_decimal hn)
  unfold SourceId.display
  rw [fromDisplayStr_of_address (hparts source.node.toNat_lt) (hparts source.boot.toNat_lt)
    (hparts source.seq.toNat_lt)]
  simp

lemma address_display (source : SourceId) :
    Address source.display (decimal source.node.toNat) (decimal source.boot.toNat)
      (decimal source.seq.toNat) := by
  have hparts : ∀ {width n : ℕ}, n < 2 ^ width → Number width (decimal n) :=
    fun hn => ⟨_, parseUnsigned_eq_some.mp (parseUnsigned_decimal hn)⟩
  exact ⟨rfl, hparts source.node.toNat_lt, hparts source.boot.toNat_lt, hparts source.seq.toNat_lt⟩

/-- An address has one reading. -/
lemma Address.unique {node boot seq node' boot' seq' : Bytes} (h : Address text node boot seq)
    (h' : Address text node' boot' seq') : node = node' ∧ boot = boot' ∧ seq = seq' := by
  have hsplit := splitOn_of_colons h.2.1.colon_not_mem h.2.2.1.colon_not_mem h.2.2.2.colon_not_mem
  have hsplit' :=
    splitOn_of_colons h'.2.1.colon_not_mem h'.2.2.1.colon_not_mem h'.2.2.2.colon_not_mem
  rw [← h.1] at hsplit
  rw [← h'.1, hsplit] at hsplit'
  simpa using hsplit'

/-! ## Git objects -/

/-- Reading hexadecimal digits pair by pair. -/
lemma mapM_nibbles {k : ℕ} (hlength : text.length = 2 * k) (h : Spells 16 text digits) :
    ∃ bytes, (pairs text).mapM nibbles = some bytes ∧ bytes.length = k
      ∧ bytesValue bytes = value 16 digits := by
  obtain ⟨bytes, hbytes, hcount, hvalue⟩ := mapM_of_paired
    (fun _ _ _ _ => nibbles_of_digits) (paired_of_spells (fun _ _ h => h) hlength h)
  exact ⟨bytes, hbytes, by omega, hvalue⟩

lemma spells_of_mapM_nibbles {k : ℕ} (hlength : text.length = 2 * k) {bytes : Bytes}
    (h : (pairs text).mapM nibbles = some bytes) : ∃ digits, Spells 16 text digits := by
  obtain ⟨digits, hpaired⟩ := paired_of_mapM (fun _ _ _ => digits_of_nibbles) hlength h
  exact ⟨digits, hpaired.hex_spells⟩

/-- The two halves of a byte. -/
lemma halves (byte : UInt8) :
    [digitByte (byte >>> 4).toNat, digitByte (byte &&& 0x0f).toNat] = hexByte byte := by
  have hhigh : (byte >>> 4).toNat = byte.toNat / 16 := by
    rw [UInt8.toNat_shiftRight]
    exact Nat.shiftRight_eq_div_pow _ _
  have hlow : (byte &&& 0x0f).toNat = byte.toNat % 16 := by
    rw [UInt8.toNat_and]
    exact Nat.and_two_pow_sub_one_eq_mod byte.toNat 4
  rw [hhigh, hlow]
  rfl

lemma digestLen_le (format : GitObjectFormat) : digestLen format ≤ 32 := by
  cases format <;> decide

/-- The hexadecimal text of an object identity: its digits, forty or sixty-four of them. -/
lemma oidToHex_eq (oid : GitOid) :
    oidToHex oid = (fixed 16 (2 * digestLen oid.format)
      (oid.bytes.toNat / 16 ^ (64 - 2 * digestLen oid.format))).map digitByte := by
  have hle := digestLen_le oid.format
  have hpow : 256 ^ (32 - digestLen oid.format) = 16 ^ (64 - 2 * digestLen oid.format) := by
    rw [show 256 = 16 ^ 2 from rfl, ← pow_mul, Nat.mul_sub]
  have hsquare : (fixed 256 (digestLen oid.format)
      (oid.bytes.toNat / 256 ^ (32 - digestLen oid.format))).flatMap (fun d => [d / 16, d % 16])
      = fixed 16 (2 * digestLen oid.format)
        (oid.bytes.toNat / 256 ^ (32 - digestLen oid.format)) := fixed_square
  unfold oidToHex
  simp only [halves]
  rw [idBytes_eq, ← List.map_take, take_fixed hle,
    flatMap_hexByte fun d hd => lt_of_mem_fixed (by decide) hd, hsquare, hpow]

lemma toNat_idOfBytes {bytes : Bytes} (h : bytes.length = 32) :
    (idOfBytes bytes).toNat = bytesValue bytes := by
  have hlt := bytesValue_lt bytes
  rw [h] at hlt
  rw [idOfBytes_eq, BitVec.toNat_ofNat, Nat.mod_eq_of_lt (lt_of_lt_of_eq hlt (by norm_num))]

/-- What is read is forty or sixty-four hexadecimal digits, and it is written again in lower
case. -/
lemma oidFromHex_eq_some {oid : GitOid} (h : oidFromHex text = some oid) :
    (text.length = 40 ∨ text.length = 64) ∧ (∃ digits, Spells 16 text digits)
      ∧ oidToHex oid = toAsciiLowercase text := by
  unfold oidFromHex at h
  split at h
  · next hlength =>
    obtain ⟨bytes, hbytes, rfl⟩ := Option.map_eq_some_iff.mp h
    obtain ⟨digits, hspells⟩ := spells_of_mapM_nibbles (show text.length = 2 * 20 by omega) hbytes
    obtain ⟨found, hfound, hcount, hvalue⟩ :=
      mapM_nibbles (show text.length = 2 * 20 by omega) hspells
    rw [hbytes, Option.some.injEq] at hfound
    subst hfound
    refine ⟨.inl hlength, ⟨digits, hspells⟩, ?_⟩
    have hpadded : bytesValue (bytes ++ List.replicate 12 0) = value 16 digits * 16 ^ 24 := by
      have hzeros : value 256 ((List.replicate 12 (0 : UInt8)).map UInt8.toNat) = 0 := by decide
      rw [← hvalue]
      unfold bytesValue
      rw [List.map_append, value_append, hzeros]
      norm_num
    have hdigits : digits.length = 40 := by rw [← hlength, hspells.length_eq]
    rw [oidToHex_eq]
    show (fixed 16 40 ((idOfBytes (bytes ++ List.replicate 12 0)).toNat / 16 ^ 24)).map digitByte = _
    rw [toNat_idOfBytes (by simp [hcount]), hpadded, Nat.mul_div_cancel _ (by norm_num), ← hdigits,
      fixed_value (by decide) hspells.lt, map_digitByte_of_spells hspells]
  · next hshort =>
    split at h
    · next hlength =>
      obtain ⟨bytes, hbytes, rfl⟩ := Option.map_eq_some_iff.mp h
      obtain ⟨digits, hspells⟩ := spells_of_mapM_nibbles (show text.length = 2 * 32 by omega) hbytes
      obtain ⟨found, hfound, hcount, hvalue⟩ :=
        mapM_nibbles (show text.length = 2 * 32 by omega) hspells
      rw [hbytes, Option.some.injEq] at hfound
      subst hfound
      refine ⟨.inr hlength, ⟨digits, hspells⟩, ?_⟩
      have hdigits : digits.length = 64 := by rw [← hlength, hspells.length_eq]
      rw [oidToHex_eq]
      show (fixed 16 64 ((idOfBytes bytes).toNat / 16 ^ 0)).map digitByte = _
      rw [toNat_idOfBytes hcount, hvalue, pow_zero, Nat.div_one, ← hdigits,
        fixed_value (by decide) hspells.lt, map_digitByte_of_spells hspells]
    · cases h

lemma oidFromHex_isSome (hlength : text.length = 40 ∨ text.length = 64)
    (h : Spells 16 text digits) : ∃ oid, oidFromHex text = some oid := by
  unfold oidFromHex
  rcases hlength with hlength | hlength
  · obtain ⟨bytes, hbytes, -⟩ := mapM_nibbles (show text.length = 2 * 20 by omega) h
    rw [if_pos hlength, hbytes]
    exact ⟨_, rfl⟩
  · obtain ⟨bytes, hbytes, -⟩ := mapM_nibbles (show text.length = 2 * 32 by omega) h
    rw [if_neg (by omega), if_pos hlength, hbytes]
    exact ⟨_, rfl⟩

lemma spells_unique {others : List ℕ} (h : Spells 16 text digits) (h' : Spells 16 text others) :
    digits = others := by
  induction h generalizing others with
  | nil =>
    cases h'
    rfl
  | cons hfirst _ ih =>
    cases h' with
    | cons hfirst' hrest' =>
      rw [hfirst, Option.some.injEq] at hfirst'
      rw [hfirst', ih hrest']

lemma spells_oidToHex (oid : GitOid) :
    Spells 16 (oidToHex oid) (fixed 16 (2 * digestLen oid.format)
      (oid.bytes.toNat / 16 ^ (64 - 2 * digestLen oid.format))) := by
  rw [oidToHex_eq]
  exact spells_map fun d hd => lt_of_mem_fixed (by decide) hd

lemma length_oidToHex (oid : GitOid) : (oidToHex oid).length = 2 * digestLen oid.format := by
  rw [oidToHex_eq, List.length_map, length_fixed]

/-- Object identities with the same text are the same. -/
lemma oidToHex_injective {oid other : GitOid} (h : oidToHex oid = oidToHex other) : oid = other := by
  have hlength : digestLen oid.format = digestLen other.format := by
    have := congrArg List.length h
    rw [length_oidToHex, length_oidToHex] at this
    omega
  have hformat : oid.format = other.format := by
    revert hlength
    cases oid.format <;> cases other.format <;> simp [digestLen]
  have hdigits := spells_unique (spells_oidToHex oid) (h ▸ spells_oidToHex other)
  have hvalues := congrArg (value 16) hdigits
  rw [value_fixed, value_fixed, ← hlength] at hvalues
  have hfits : ∀ n < 16 ^ 64, n / 16 ^ (64 - 2 * digestLen oid.format)
      % 16 ^ (2 * digestLen oid.format) = n / 16 ^ (64 - 2 * digestLen oid.format) := by
    intro n hn
    have hle := digestLen_le oid.format
    apply Nat.mod_eq_of_lt
    rw [Nat.div_lt_iff_lt_mul (Nat.pow_pos (by decide)), ← pow_add]
    rwa [show 2 * digestLen oid.format + (64 - 2 * digestLen oid.format) = 64 by omega]
  have hbound : ∀ id : BitVec 256, id.toNat < 16 ^ 64 := fun id =>
    lt_of_lt_of_eq id.isLt (by norm_num)
  rw [hfits _ (hbound oid.bytes), hfits _ (hbound other.bytes)] at hvalues
  obtain ⟨format, bytes, hpadded⟩ := oid
  obtain ⟨format', bytes', hpadded'⟩ := other
  have hsame : format = format' := hformat
  subst hsame
  have hbytes : bytes = bytes' := by
    apply BitVec.eq_of_toNat_eq
    cases format with
    | sha256 =>
      have hvalues : bytes.toNat / 16 ^ 0 = bytes'.toNat / 16 ^ 0 := hvalues
      rwa [pow_zero, Nat.div_one, Nat.div_one] at hvalues
    | sha1 =>
      have hvalues : bytes.toNat / 16 ^ 24 = bytes'.toNat / 16 ^ 24 := hvalues
      have hlow : ∀ id : BitVec 256, id.extractLsb' 0 96 = 0 → id.toNat % 2 ^ 96 = 0 := by
        intro id hid
        have := congrArg BitVec.toNat hid
        rwa [BitVec.extractLsb'_toNat, Nat.shiftRight_zero] at this
      have hzero := hlow bytes (hpadded rfl)
      have hzero' := hlow bytes' (hpadded' rfl)
      norm_num at hvalues hzero hzero'
      omega
  subst hbytes
  rfl

/-- Reading inverts the text of an object identity. -/
lemma oidFromHex_oidToHex (oid : GitOid) : oidFromHex (oidToHex oid) = some oid := by
  have hlength : (oidToHex oid).length = 40 ∨ (oidToHex oid).length = 64 := by
    rw [length_oidToHex]
    cases oid.format <;> simp [digestLen]
  obtain ⟨found, hfound⟩ := oidFromHex_isSome hlength (spells_oidToHex oid)
  obtain ⟨-, -, hagain⟩ := oidFromHex_eq_some hfound
  have hlower : toAsciiLowercase (oidToHex oid) = oidToHex oid := by
    rw [← map_digitByte_of_spells (spells_oidToHex oid), oidToHex_eq]
  rw [hfound, oidToHex_injective (hagain.trans hlower)]

/-- Digits in lower case are read as they would be in any case. -/
lemma spells_of_lower (h : toAsciiLowercase text = digits.map digitByte)
    (hlt : ∀ d ∈ digits, d < 16) : Spells 16 text digits := by
  induction text generalizing digits with
  | nil =>
    have hempty : digits = [] := List.map_eq_nil_iff.mp h.symm
    rw [hempty]
    exact .nil
  | cons byte text ih =>
    cases digits with
    | nil => cases h
    | cons d digits =>
      obtain ⟨hd, hrest⟩ := List.forall_mem_cons.mp hlt
      have h : lower byte :: toAsciiLowercase text = digitByte d :: digits.map digitByte := h
      obtain ⟨hfirst, htail⟩ := List.cons.inj h
      exact .cons (lower_eq_digitByte hd hfirst) (ih htail hrest)

/-- An object identity is read from its text in any case. -/
lemma oidFromHex_of_lower {oid : GitOid} (h : toAsciiLowercase text = oidToHex oid) :
    oidFromHex text = some oid := by
  have hlength : text.length = 2 * digestLen oid.format := by
    rw [← length_oidToHex, ← h]
    simp [toAsciiLowercase]
  have hcases : text.length = 40 ∨ text.length = 64 := by
    rw [hlength]
    cases oid.format <;> simp [digestLen]
  have hspells := spells_of_lower (h.trans (oidToHex_eq oid))
    fun d hd => lt_of_mem_fixed (by decide) hd
  obtain ⟨found, hfound⟩ := oidFromHex_isSome hcases hspells
  rw [hfound, oidToHex_injective ((oidFromHex_eq_some hfound).2.2.trans h)]

/-! ## Commit keys -/

namespace GitCommitKey

/-- The display form of a key, up to the case of the hexadecimal digits. -/
def Spelled (key : GitCommitKey) (text : Bytes) : Prop :=
  ∃ hex, text = marker ++ (decimal key.repository.toNat ++ 58 :: hex)
    ∧ toAsciiLowercase hex = oidToHex key.oid

lemma splitOnce_of_not_mem {first rest : Bytes} (h : 58 ∉ first) :
    splitOnce (first ++ 58 :: rest) = some (first, rest) := by
  have hall : ∀ byte ∈ first, decide (byte ≠ 58) = true := by
    intro byte hbyte
    rw [decide_eq_true_eq]
    rintro rfl
    exact h hbyte
  unfold splitOnce
  rw [List.dropWhile_append_of_pos hall, List.takeWhile_append_of_pos hall]
  simp

lemma of_splitOnce {first rest : Bytes} (h : splitOnce text = some (first, rest)) :
    text = first ++ 58 :: rest := by
  unfold splitOnce at h
  split at h
  · cases h
  · next byte after hdrop =>
    have hbyte : byte = 58 := by
      have hne : text.dropWhile (fun byte => decide (byte ≠ 58)) ≠ [] := by
        rw [hdrop]
        simp
      have hstop := List.head_dropWhile_not (fun byte : UInt8 => decide (byte ≠ 58)) hne
      simp only [hdrop, List.head_cons] at hstop
      simpa using hstop
    cases h
    rw [hbyte] at hdrop
    rw [← hdrop]
    exact (List.takeWhile_append_dropWhile).symm

/-- A key is read when it consists of a number and the digits of an object identity. -/
lemma fromDisplayStr_eq_some {key : GitCommitKey} :
    fromDisplayStr text = some key
      ↔ ∃ repository n hex, text = marker ++ (repository ++ 58 :: hex)
        ∧ IsNumeral 10 (2 ^ 64) repository n ∧ oidFromHex hex = some key.oid
        ∧ key.repository = .ofNat n := by
  constructor
  · intro h
    obtain ⟨rest, hrest, h⟩ := Option.bind_eq_some_iff.mp h
    obtain ⟨⟨repository, hex⟩, hsplit, h⟩ := Option.bind_eq_some_iff.mp h
    obtain ⟨n, hn, h⟩ := Option.bind_eq_some_iff.mp h
    obtain ⟨oid, hoid, h⟩ := Option.bind_eq_some_iff.mp h
    cases h
    have htext : text = marker ++ rest := by
      unfold stripMarker at hrest
      split at hrest
      · next hmarker =>
        cases hrest
        rw [← hmarker, List.take_append_drop]
      · cases hrest
    refine ⟨repository, n, hex, ?_, parseUnsigned_eq_some.mp hn, hoid, rfl⟩
    rw [htext, ← of_splitOnce hsplit]
  · rintro ⟨repository, n, hex, rfl, hn, hoid, hrepository⟩
    have hstrip : stripMarker (marker ++ (repository ++ 58 :: hex))
        = some (repository ++ 58 :: hex) := rfl
    unfold fromDisplayStr
    simp only [hstrip, splitOnce_of_not_mem (colon_not_mem_of_numeral hn),
      parseUnsigned_eq_some.mpr hn, hoid, bind, Option.bind_some, ← hrepository]
    rfl

lemma fromDisplayStr_of_spelled {key : GitCommitKey} (h : key.Spelled text) :
    fromDisplayStr text = some key := by
  obtain ⟨hex, htext, hhex⟩ := h
  refine fromDisplayStr_eq_some.mpr ⟨decimal key.repository.toNat, key.repository.toNat, hex, htext,
    parseUnsigned_eq_some.mp (parseUnsigned_decimal key.repository.toNat_lt),
    oidFromHex_of_lower hhex, ?_⟩
  simp

/-- A key has one reading. -/
lemma marker_unique {repository hex repository' hex' : Bytes} (h : 58 ∉ repository)
    (h' : 58 ∉ repository')
    (heq : marker ++ (repository ++ 58 :: hex) = marker ++ (repository' ++ 58 :: hex')) :
    repository = repository' ∧ hex = hex' := by
  have hrest := List.append_cancel_left heq
  have hsplit : splitOnce (repository ++ 58 :: hex) = some (repository, hex) :=
    splitOnce_of_not_mem h
  rw [hrest, splitOnce_of_not_mem h', Option.some.injEq, Prod.mk.injEq] at hsplit
  exact ⟨hsplit.1.symm, hsplit.2.symm⟩

end GitCommitKey

/-! ## Accepted spellings -/

lemma all_isHexDigit_of_spells (h : Spells 16 text digits) : text.all IdQuery.isHexDigit = true :=
  exists_spells_iff.mp ⟨digits, h⟩

lemma plus_not_mem_of_all (h : text.all IdQuery.isHexDigit = true) : 43 ∉ text := by
  obtain ⟨digits, hspells⟩ := exists_spells_iff.mpr h
  exact not_mem_of_spells hspells (by decide)

lemma Address.colon_mem {node boot seq : Bytes} (h : Address text node boot seq) : 58 ∈ text := by
  rw [h.1]
  simp

/-- Where a text is otherwise well-formed, its numbers have no plus sign and no zeros in front, and
its pairs of hexadecimal digits have no plus sign. -/
structure Plain (text : Bytes) : Prop where
  id : 58 ∉ text → text.length = 64 → (∃ digits, Paired HexOrPlus text digits) → 43 ∉ text
  source : ∀ node boot seq, Address text node boot seq
    → Unadorned node ∧ Unadorned boot ∧ Unadorned seq
  key : ∀ repository hex, text = GitCommitKey.marker ++ (repository ++ 58 :: hex)
    → Number 64 repository → (hex.length = 40 ∨ hex.length = 64) → hex.all IdQuery.isHexDigit
    → Unadorned repository

/-- Without adornments, the keys that are read are the ones that are written. -/
lemma Plain.fromDisplayStr_iff (h : Plain text) {key : GitCommitKey} :
    GitCommitKey.fromDisplayStr text = some key ↔ key.Spelled text := by
  constructor
  · intro hread
    obtain ⟨repository, n, hex, htext, hn, hoid, hrepository⟩ :=
      GitCommitKey.fromDisplayStr_eq_some.mp hread
    obtain ⟨hlength, ⟨digits, hspells⟩, hwritten⟩ := oidFromHex_eq_some hoid
    have hplain := h.key repository hex htext ⟨n, hn⟩ hlength (all_isHexDigit_of_spells hspells)
    refine ⟨hex, ?_, hwritten.symm⟩
    rw [htext, hrepository, UInt64.toNat_ofNat', Nat.mod_eq_of_lt hn.lt,
      eq_decimal_of_unadorned hn hplain]
  · exact GitCommitKey.fromDisplayStr_of_spelled

section Acceptance

variable [AddressHash]

/-- The parsers accept the documented spellings of a text and no others, and reading is inverse to
writing. -/
structure Documented (text : Bytes) : Prop where
  id : 58 ∉ text → ((idFromDisplayStr text).isSome
    ↔ text.length = 64 ∧ text.all IdQuery.isHexDigit)
  idWritten : 58 ∉ text → ∀ id, idFromDisplayStr text = some id
    → displayId id = toAsciiLowercase text
  source : 58 ∈ text → ((idFromDisplayStr text).isSome ↔ ∃ source : SourceId, text = source.display)
  sourceRead : ∀ source : SourceId, text = source.display
    → SourceId.fromDisplayStr text = some source
  oid : (oidFromHex text).isSome
    ↔ (text.length = 40 ∨ text.length = 64) ∧ text.all IdQuery.isHexDigit
  oidWritten : ∀ oid, oidFromHex text = some oid → oidToHex oid = toAsciiLowercase text
  key : (GitCommitKey.fromDisplayStr text).isSome ↔ ∃ key : GitCommitKey, key.Spelled text
  keyWritten : ∀ key, GitCommitKey.fromDisplayStr text = some key ↔ key.Spelled text

/-- Documented texts have no adornments. -/
lemma Documented.plain (h : Documented text) : Plain text where
  id hcolon hlength hpaired := by
    obtain ⟨digits, hdigits⟩ := hpaired
    have hread := (idFromDisplayStr_eq_some hcolon).mpr ⟨hlength, digits, hdigits, rfl⟩
    have hall := (h.id hcolon).mp (by rw [hread]; rfl)
    exact plus_not_mem_of_all hall.2
  source node boot seq haddress := by
    have hparts := haddress
    obtain ⟨htext, ⟨n, hn⟩, ⟨b, hb⟩, ⟨q, hq⟩⟩ := hparts
    have hcolon := haddress.colon_mem
    have hread := fromDisplayStr_of_address hn hb hq
    rw [← htext] at hread
    obtain ⟨source, hsource⟩ := (h.source hcolon).mp (by
      unfold idFromDisplayStr
      rw [if_pos hcolon, hread]
      rfl)
    have hdisplay := address_display source
    rw [← hsource] at hdisplay
    obtain ⟨rfl, rfl, rfl⟩ := haddress.unique hdisplay
    exact ⟨unadorned_decimal _, unadorned_decimal _, unadorned_decimal _⟩
  key repository hex htext hnumber hlength hall := by
    have hvalue := hnumber
    obtain ⟨n, hn⟩ := hvalue
    obtain ⟨digits, hspells⟩ := exists_spells_iff.mpr hall
    obtain ⟨oid, hoid⟩ := oidFromHex_isSome hlength hspells
    have hread : GitCommitKey.fromDisplayStr text = some ⟨.ofNat n, oid⟩ :=
      GitCommitKey.fromDisplayStr_eq_some.mpr ⟨repository, n, hex, htext, hn, hoid, rfl⟩
    obtain ⟨hex', htext', -⟩ := (h.keyWritten _).mp hread
    rw [htext] at htext'
    obtain ⟨rfl, -⟩ :=
      GitCommitKey.marker_unique hnumber.colon_not_mem (colon_not_mem_decimal _) htext'
    exact unadorned_decimal _

/-- Without adornments every text is read as documented. -/
lemma Plain.documented (h : Plain text) : Documented text where
  id hcolon := by
    constructor
    · intro hsome
      obtain ⟨id, hid⟩ := Option.isSome_iff_exists.mp hsome
      obtain ⟨hlength, digits, hpaired, -⟩ := (idFromDisplayStr_eq_some hcolon).mp hid
      have hplus := h.id hcolon hlength ⟨digits, hpaired⟩
      exact ⟨hlength, all_isHexDigit_of_spells (hpaired.spells hplus)⟩
    · rintro ⟨hlength, hall⟩
      obtain ⟨digits, hspells⟩ := exists_spells_iff.mpr hall
      rw [idFromDisplayStr_of_spells hlength hspells]
      rfl
  idWritten hcolon id hid := by
    obtain ⟨hlength, digits, hpaired, rfl⟩ := (idFromDisplayStr_eq_some hcolon).mp hid
    have hspells := hpaired.spells (h.id hcolon hlength ⟨digits, hpaired⟩)
    rw [displayId_value (by rw [hpaired.length_eq, hlength]) hspells.lt,
      map_digitByte_of_spells hspells]
  source hcolon := by
    unfold idFromDisplayStr
    rw [if_pos hcolon, Option.isSome_map]
    constructor
    · intro hsome
      obtain ⟨source, hsource⟩ := Option.isSome_iff_exists.mp hsome
      obtain ⟨node, boot, seq, haddress⟩ := address_of_fromDisplayStr hsource
      obtain ⟨hnode, hboot, hseq⟩ := h.source node boot seq haddress
      obtain ⟨htext, ⟨n, hn⟩, ⟨b, hb⟩, ⟨q, hq⟩⟩ := haddress
      have hread := fromDisplayStr_of_address hn hb hq
      refine ⟨⟨.ofNat n, .ofNat b, .ofNat q⟩, ?_⟩
      have hn' := hn.lt
      have hb' := hb.lt
      have hq' := hq.lt
      unfold SourceId.display
      rw [htext, eq_decimal_of_unadorned hn hnode, eq_decimal_of_unadorned hb hboot,
        eq_decimal_of_unadorned hq hseq]
      simp only [UInt64.toNat_ofNat', UInt32.toNat_ofNat', Nat.mod_eq_of_lt hn',
        Nat.mod_eq_of_lt hb', Nat.mod_eq_of_lt hq']
    · rintro ⟨source, rfl⟩
      rw [fromDisplayStr_display]
      rfl
  sourceRead source hsource := by rw [hsource, fromDisplayStr_display]
  oid := by
    constructor
    · intro hsome
      obtain ⟨oid, hoid⟩ := Option.isSome_iff_exists.mp hsome
      obtain ⟨hlength, ⟨digits, hspells⟩, -⟩ := oidFromHex_eq_some hoid
      exact ⟨hlength, all_isHexDigit_of_spells hspells⟩
    · rintro ⟨hlength, hall⟩
      obtain ⟨digits, hspells⟩ := exists_spells_iff.mpr hall
      exact Option.isSome_iff_exists.mpr (oidFromHex_isSome hlength hspells)
  oidWritten oid hoid := (oidFromHex_eq_some hoid).2.2
  key := by
    rw [Option.isSome_iff_exists]
    exact exists_congr fun key => h.fromDisplayStr_iff
  keyWritten key := h.fromDisplayStr_iff

/-- The parsers read a text as documented exactly if it has no adornments. -/
theorem documented_iff_plain (text : Bytes) : Documented text ↔ Plain text :=
  ⟨Documented.plain, Plain.documented⟩

end Acceptance

/-- Thirty-two times `+f`. -/
def plusSigns : Bytes := (List.replicate 32 [43, 102]).flatten

/-- A text of plus signs and digits is read as a full identity. -/
theorem plusSigns_not_documented : ¬ @Documented messageAddresses plusSigns := by
  intro h
  have hpaired : ∃ digits, Paired HexOrPlus plusSigns digits := by
    refine ⟨(List.replicate 32 [0, 15]).flatten, ?_⟩
    unfold plusSigns
    generalize 32 = k
    induction k with
    | zero => exact .nil
    | succ k ih =>
      rw [List.replicate_succ, List.replicate_succ, List.flatten_cons, List.flatten_cons]
      exact .cons (.inr ⟨rfl, rfl⟩) (by decide) ih
  have hplain := @Documented.plain plusSigns messageAddresses h
  exact hplain.id (by decide) (by decide) hpaired (by decide)

end EditChain.Core
