import EditChain.Activity.Model
import EditChain.Migration.RecordTheorems

/-!
# The operation codec loses nothing

Four spellings share one decoder. What `encode_op` writes is read back as it was, in exactly the
length that `encoded_op_len` announced; what `decode_op` accepts is in order, is not the beginning
of anything else that it accepts, and can be written again.
-/

namespace EditChain.Migration

open Fallible

variable {P : Payloads}

/-- `postcard::experimental::serialized_size` on the two envelopes that are written. -/
class SerializedSize (P : outParam Payloads) where
  opSize : Op P → Except PostcardError ℕ
  activitySize : P.Activity → Except PostcardError ℕ

section Length

variable [AddressHash] [SerializedSize P]

/-- `encoded_op_len`. -/
def encodedOpLen (op : Op P) : Except PostcardError ℕ := do
  if op.misplaced then throw serdeSerCustom
  let size ← match op.kind with
    | .activity record => do
      if !P.validate record then throw serdeSerCustom
      if !matchesEnvelope record op then throw serdeSerCustom
      SerializedSize.activitySize record
    | _ => SerializedSize.opSize op
  return size + recordMagic.length + 1

end Length

/-- What the serialization library promises on the three envelopes. -/
structure Serializes [AddressHash] [Postcard P] [SerializedSize P] : Prop where
  /-- What was written is read back. -/
  op : RoundTrip (P := P)
  activity : ∀ (record : P.Activity) (bytes : Bytes), Postcard.activityBytes record = .ok bytes →
    Postcard.takeActivity bytes = .ok (record, [])
  /-- What was read can be written. -/
  opWritten : ∀ {bytes : Bytes} {op : Op P} {rest : Bytes},
    Postcard.takeOp bytes = .ok (op, rest) → ∃ out, Postcard.opBytes op = .ok out
  legacyWritten : ∀ {bytes : Bytes} {legacy : LegacyOp P} {rest : Bytes},
    Postcard.takeLegacy bytes = .ok (legacy, rest) →
      ∃ out, Postcard.opBytes legacy.intoCanonical = .ok out
  activityWritten : ∀ {bytes : Bytes} {record : P.Activity} {rest : Bytes},
    Postcard.takeActivity bytes = .ok (record, rest) → ∃ out, Postcard.activityBytes record = .ok out
  /-- A value is read from the front, whatever follows it. -/
  opFront : ∀ {bytes : Bytes} {op : Op P} {rest : Bytes}, Postcard.takeOp bytes = .ok (op, rest) →
    ∀ later, Postcard.takeOp (bytes ++ later) = .ok (op, rest ++ later)
  legacyFront : ∀ {bytes : Bytes} {legacy : LegacyOp P} {rest : Bytes},
    Postcard.takeLegacy bytes = .ok (legacy, rest) →
      ∀ later, Postcard.takeLegacy (bytes ++ later) = .ok (legacy, rest ++ later)
  activityFront : ∀ {bytes : Bytes} {record : P.Activity} {rest : Bytes},
    Postcard.takeActivity bytes = .ok (record, rest) →
      ∀ later, Postcard.takeActivity (bytes ++ later) = .ok (record, rest ++ later)
  /-- Ten continuation bytes cannot begin a number, and fewer do not end one. -/
  legacyMagic : ∀ {bytes : Bytes}, bytes <+: recordMagic →
    ∀ found : LegacyOp P × Bytes, Postcard.takeLegacy bytes ≠ .ok found
  /-- The computed size is the size of what is written. -/
  opSize : ∀ op : Op P, SerializedSize.opSize op = (Postcard.opBytes op).map List.length
  activitySize : ∀ record : P.Activity,
    SerializedSize.activitySize record = (Postcard.activityBytes record).map List.length

/-! ## Envelopes -/

/-- The parents that an envelope keeps, two at most. -/
def keptParents : List OpId → ParentSet OpId
  | [] => .none
  | [first] => .one first
  | first :: second :: _ => .two first second

lemma keptParents_eq_iff {kept : List OpId} {parents : ParentSet OpId} :
    keptParents kept = parents ↔ parents.toList = kept.take 2 := by
  rcases kept with _ | ⟨first, _ | ⟨second, rest⟩⟩
  · cases parents <;> simp [keptParents, ParentSet.toList]
  · cases parents <;> simp [keptParents, ParentSet.toList, eq_comm]
  · cases parents with
    | none => simp [keptParents, ParentSet.toList]
    | one _ => simp [keptParents, ParentSet.toList]
    | two _ _ => simp [keptParents, ParentSet.toList, eq_comm]

/-- The envelope of an activity record is the one that its fields give. -/
lemma intoOp_eq_some_iff {record : P.Activity} {op : Op P} :
    intoOp record = some op
      ↔ P.validate record = true ∧ op.kind = .activity record
        ∧ matchesEnvelope record op = true := by
  obtain ⟨id, source, parents, context, kind⟩ := op
  unfold intoOp matchesEnvelope
  by_cases hvalid : P.validate record = true
  · simp only [hvalid, if_true, true_and, Option.some.injEq, Op.mk.injEq, decide_eq_true_eq,
      Option.isNone_iff_eq_none]
    constructor
    · rintro ⟨rfl, rfl, hkept, rfl, rfl⟩
      exact ⟨rfl, rfl, rfl, rfl, keptParents_eq_iff.mp hkept⟩
    · rintro ⟨rfl, rfl, rfl, rfl, hkept⟩
      exact ⟨rfl, rfl, keptParents_eq_iff.mpr hkept, rfl, rfl⟩
  · simp [hvalid]

variable [AddressHash]

/-- The source address of an operation in place derives its identity. -/
lemma misplaced_eq_false {op : Op P} :
    op.misplaced = false ↔ ∀ source, op.source = some source → source.id = op.id := by
  unfold Op.misplaced
  cases op.source with
  | none => simp
  | some source => simp

variable [Postcard P]

/-! ## Encoding -/

/-- How an operation is written. -/
lemma encodeOp_eq_ok {op : Op P} {encoded : Bytes} :
    encodeOp op = .ok encoded
      ↔ op.misplaced = false
        ∧ ((∃ record body, op.kind = .activity record ∧ intoOp record = some op
            ∧ Postcard.activityBytes record = .ok body ∧ encoded = recordMagic ++ 3 :: body)
          ∨ (op.kind.isActivity = false ∧ ∃ body, Postcard.opBytes op = .ok body
            ∧ encoded = recordMagic ++ recordSchema :: body)) := by
  unfold encodeOp
  rw [guard_eq_ok, Bool.not_eq_true]
  cases hkind : op.kind with
  | activity record =>
    simp only [guard_eq_ok, bind_eq_ok, pure_eq_ok, intoOp_eq_some_iff, hkind,
      OpKind.activity.injEq, OpKind.isActivity, Bool.not_eq_true, Bool.not_eq_false']
    constructor
    · rintro ⟨hplace, hvalid, hmatches, body, hbody, rfl⟩
      exact ⟨hplace, .inl ⟨record, body, rfl, ⟨hvalid, rfl, hmatches⟩, hbody, rfl⟩⟩
    · rintro ⟨hplace, ⟨_, body, rfl, ⟨hvalid, -, hmatches⟩, hbody, rfl⟩ | ⟨hnot, -⟩⟩
      · exact ⟨hplace, hvalid, hmatches, body, hbody, rfl⟩
      · cases hnot
  | _ =>
    simp only [bind_eq_ok, pure_eq_ok, OpKind.isActivity, reduceCtorEq, false_and, exists_false,
      false_or, true_and, @eq_comm _ encoded]

/-- The announced length is the length of what is written. -/
lemma encodedOpLen_eq [SerializedSize P] (h : Serializes (P := P)) (op : Op P) :
    encodedOpLen op = (encodeOp op).map List.length := by
  have hmap : ∀ (bytes : Except PostcardError Bytes) (schema : UInt8),
      (do let size ← bytes.map List.length
          return size + recordMagic.length + 1 : Except PostcardError ℕ)
        = (do let body ← bytes
              return recordMagic ++ schema :: body : Except PostcardError Bytes).map List.length := by
    intro bytes schema
    cases bytes with
    | error e => rfl
    | ok body =>
      show Except.ok _ = Except.ok _
      rw [List.length_append, List.length_cons]
      congr 1
      omega
  unfold encodedOpLen encodeOp
  by_cases hplace : op.misplaced = true
  · simp only [hplace, if_true]
    rfl
  · simp only [hplace, Bool.false_eq_true, if_false]
    cases hkind : op.kind with
    | activity record =>
      by_cases hvalid : P.validate record = true
      · by_cases hmatches : matchesEnvelope record op = true
        · simp only [hvalid, hmatches, Bool.not_true, Bool.false_eq_true, if_false]
          rw [h.activitySize]
          exact hmap _ _
        · simp only [hvalid, hmatches, Bool.not_true, Bool.not_false, Bool.false_eq_true, if_false,
            if_true]
          rfl
      · simp only [hvalid, Bool.not_false, if_true]
        rfl
    | _ =>
      simp only [h.opSize]
      exact hmap _ _

/-! ## Decoding -/

lemma decodeOp_eq_ok {bytes : Bytes} {op : Op P} :
    decodeOp bytes = .ok op ↔ takeEnvelope bytes = .ok (op, []) ∧ op.misplaced = false := by
  unfold decodeOp
  rw [bind_eq_ok]
  constructor
  · rintro ⟨⟨found, rest⟩, htake, h⟩
    simp only [guard_eq_ok, pure_eq_ok, ne_eq, not_not, Bool.not_eq_true] at h
    obtain ⟨rfl, hplace, rfl⟩ := h
    exact ⟨htake, hplace⟩
  · rintro ⟨htake, hplace⟩
    refine ⟨(op, []), htake, ?_⟩
    simp only [guard_eq_ok, pure_eq_ok, ne_eq, not_not, Bool.not_eq_true]
    exact ⟨trivial, hplace, trivial⟩

/-- The spelling of a record whose envelope was found. -/
inductive Spelling (op : Op P) (rest : Bytes) : Bytes → Prop where
  | schemaOne (body : Bytes) (take : Postcard.takeOp body = .ok (op, rest))
      (kind : op.kind.isActivity = false) : Spelling op rest (recordMagic ++ recordSchema :: body)
  | schemaThree (record : P.Activity) (body : Bytes)
      (take : Postcard.takeActivity body = .ok (record, rest)) (into : intoOp record = some op) :
      Spelling op rest (recordMagic ++ 3 :: body)
  | schemaTwo (legacy : LegacyOp P) (body : Bytes)
      (take : Postcard.takeLegacy body = .ok (legacy, rest))
      (kind : legacy.kind.isActivity = false) (canonical : op = legacy.intoCanonical) :
      Spelling op rest (recordMagic ++ 2 :: body)
  | unversioned (legacy : LegacyOp P) (bytes : Bytes) (plain : ¬ recordMagic <+: bytes)
      (take : Postcard.takeLegacy bytes = .ok (legacy, rest))
      (kind : legacy.kind.isActivity = false) (canonical : op = legacy.intoCanonical) :
      Spelling op rest bytes

lemma takeCanonical_eq_ok {bytes rest : Bytes} {op : Op P} :
    takeCanonical bytes = .ok (op, rest)
      ↔ ∃ legacy : LegacyOp P, Postcard.takeLegacy bytes = .ok (legacy, rest)
        ∧ legacy.kind.isActivity = false ∧ op = legacy.intoCanonical := by
  unfold takeCanonical
  rw [bind_eq_ok]
  constructor
  · rintro ⟨⟨legacy, remaining⟩, htake, h⟩
    simp only [guard_eq_ok, pure_eq_ok, Bool.not_eq_true, Prod.mk.injEq] at h
    obtain ⟨hkind, rfl, rfl⟩ := h
    exact ⟨legacy, htake, hkind, rfl⟩
  · rintro ⟨legacy, htake, hkind, rfl⟩
    refine ⟨(legacy, rest), htake, ?_⟩
    simp only [guard_eq_ok, pure_eq_ok, Bool.not_eq_true]
    exact ⟨hkind, trivial⟩

/-- An envelope is found exactly in one of the four spellings. -/
lemma takeEnvelope_eq_ok {bytes rest : Bytes} {op : Op P} :
    takeEnvelope bytes = .ok (op, rest) ↔ Spelling op rest bytes := by
  constructor
  · intro h
    unfold takeEnvelope at h
    by_cases hmagic : recordMagic <+: bytes
    · obtain ⟨tail, rfl⟩ := hmagic
      rw [stripMagic_append] at h
      cases tail with
      | nil => cases h
      | cons schema body =>
        simp only [takeSchema] at h
        split at h
        · next hone =>
          obtain ⟨⟨found, remaining⟩, htake, h⟩ := bind_eq_ok.mp h
          simp only [guard_eq_ok, pure_eq_ok, Bool.not_eq_true, Prod.mk.injEq] at h
          obtain ⟨hkind, rfl, rfl⟩ := h
          rw [hone]
          exact .schemaOne body htake hkind
        · split at h
          · next hthree =>
            obtain ⟨⟨record, remaining⟩, htake, h⟩ := bind_eq_ok.mp h
            simp only at h
            split at h
            · next found hfound =>
              rw [pure_eq_ok, Prod.mk.injEq] at h
              obtain ⟨rfl, rfl⟩ := h
              rw [hthree]
              exact .schemaThree record body htake hfound
            · cases h
          · split at h
            · next htwo =>
              obtain ⟨legacy, htake, hkind, hop⟩ := takeCanonical_eq_ok.mp h
              rw [htwo]
              exact .schemaTwo legacy body htake hkind hop
            · cases h
    · rw [stripMagic_of_not hmagic] at h
      obtain ⟨legacy, htake, hkind, hop⟩ := takeCanonical_eq_ok.mp h
      exact .unversioned legacy bytes hmagic htake hkind hop
  · intro h
    unfold takeEnvelope
    cases h with
    | schemaOne body htake hkind =>
      rw [stripMagic_append]
      simp only [takeSchema, if_true]
      rw [htake]
      simp only [bind, Except.bind, hkind, Bool.false_eq_true, if_false]
      rfl
    | schemaThree record body htake hinto =>
      rw [stripMagic_append]
      simp only [takeSchema, recordSchema, show ¬ (3 : UInt8) = 1 by decide, if_false, if_true]
      rw [htake]
      simp only [bind, Except.bind, hinto]
      rfl
    | schemaTwo legacy body htake hkind hop =>
      rw [stripMagic_append]
      simp only [takeSchema, recordSchema, show ¬ (2 : UInt8) = 1 by decide,
        show ¬ (2 : UInt8) = 3 by decide, if_false, if_true]
      exact takeCanonical_eq_ok.mpr ⟨legacy, htake, hkind, hop⟩
    | unversioned legacy bytes hmagic htake hkind hop =>
      rw [stripMagic_of_not hmagic]
      exact takeCanonical_eq_ok.mpr ⟨legacy, htake, hkind, hop⟩

/-- An envelope is found whatever follows it, in the same spelling. -/
lemma Spelling.append [SerializedSize P] (h : Serializes (P := P)) {bytes rest : Bytes} {op : Op P}
    (hfound : Spelling op rest bytes) (later : Bytes) :
    Spelling op (rest ++ later) (bytes ++ later) := by
  cases hfound with
  | schemaOne body htake hkind =>
    rw [List.append_assoc]
    exact .schemaOne _ (h.opFront htake later) hkind
  | schemaThree record body htake hinto =>
    rw [List.append_assoc]
    exact .schemaThree record _ (h.activityFront htake later) hinto
  | schemaTwo legacy body htake hkind hop =>
    rw [List.append_assoc]
    exact .schemaTwo legacy _ (h.legacyFront htake later) hkind hop
  | unversioned legacy bytes hmagic htake hkind hop =>
    refine .unversioned legacy _ ?_ (h.legacyFront htake later) hkind hop
    intro hlonger
    -- then the record would be a part of the magic, which begins no legacy envelope
    rcases List.prefix_or_prefix_of_prefix hlonger (List.prefix_append bytes later) with hin | hin
    · exact hmagic hin
    · exact h.legacyMagic hin _ htake

/-- What was decoded can be written. -/
lemma Spelling.written [SerializedSize P] (h : Serializes (P := P)) {bytes rest : Bytes} {op : Op P}
    (hfound : Spelling op rest bytes) (hplace : op.misplaced = false) :
    ∃ encoded, encodeOp op = .ok encoded := by
  have hlegacy : ∀ legacy : LegacyOp P, legacy.kind.isActivity = false →
      legacy.intoCanonical.kind.isActivity = false := by
    intro legacy hkind
    unfold LegacyOp.intoCanonical
    cases hlegacy : legacy.kind with
    | activity record =>
      rw [hlegacy] at hkind
      cases hkind
    | _ => rfl
  cases hfound with
  | schemaOne body htake hkind =>
    obtain ⟨out, hout⟩ := h.opWritten htake
    exact ⟨_, encodeOp_eq_ok.mpr ⟨hplace, .inr ⟨hkind, out, hout, rfl⟩⟩⟩
  | schemaThree record body htake hinto =>
    obtain ⟨out, hout⟩ := h.activityWritten htake
    exact ⟨_, encodeOp_eq_ok.mpr
      ⟨hplace, .inl ⟨record, out, (intoOp_eq_some_iff.mp hinto).2.1, hinto, hout, rfl⟩⟩⟩
  | schemaTwo legacy body htake hkind hop =>
    obtain ⟨out, hout⟩ := h.legacyWritten htake
    rw [← hop] at hout
    exact ⟨_, encodeOp_eq_ok.mpr ⟨hplace, .inr ⟨hop ▸ hlegacy legacy hkind, out, hout, rfl⟩⟩⟩
  | unversioned legacy bytes hmagic htake hkind hop =>
    obtain ⟨out, hout⟩ := h.legacyWritten htake
    rw [← hop] at hout
    exact ⟨_, encodeOp_eq_ok.mpr ⟨hplace, .inr ⟨hop ▸ hlegacy legacy hkind, out, hout, rfl⟩⟩⟩

/-- Activities are decoded from schema three only. -/
lemma Spelling.activity {bytes rest : Bytes} {op : Op P} (hfound : Spelling op rest bytes)
    {record : P.Activity} (hkind : op.kind = .activity record) :
    (∃ body, bytes = recordMagic ++ 3 :: body) ∧ intoOp record = some op := by
  have hlegacy : ∀ legacy : LegacyOp P, legacy.kind.isActivity = false →
      op ≠ legacy.intoCanonical := by
    rintro legacy hplain rfl
    cases hlegacy : legacy.kind with
    | activity record =>
      rw [hlegacy] at hplain
      cases hplain
    | _ => simp [LegacyOp.intoCanonical, hlegacy, OpKind.map] at hkind
  cases hfound with
  | schemaOne body htake hplain =>
    rw [hkind] at hplain
    cases hplain
  | schemaThree found body htake hinto =>
    have hfound := (intoOp_eq_some_iff.mp hinto).2.1
    rw [hkind] at hfound
    cases hfound
    exact ⟨⟨body, rfl⟩, hinto⟩
  | schemaTwo legacy body htake hplain hop => exact absurd hop (hlegacy legacy hplain)
  | unversioned legacy bytes hmagic htake hplain hop => exact absurd hop (hlegacy legacy hplain)

/-- What was encoded is decoded. -/
lemma decodeOp_encodeOp [SerializedSize P] (h : Serializes (P := P)) {op : Op P} {encoded : Bytes}
    (hencoded : encodeOp op = .ok encoded) : decodeOp encoded = .ok op := by
  obtain ⟨hplace, hspelled⟩ := encodeOp_eq_ok.mp hencoded
  rw [decodeOp_eq_ok, takeEnvelope_eq_ok]
  refine ⟨?_, hplace⟩
  rcases hspelled with ⟨record, body, -, hinto, hbody, rfl⟩ | ⟨hkind, body, hbody, rfl⟩
  · exact .schemaThree record body (h.activity _ _ hbody) hinto
  · exact .schemaOne body (h.op _ _ hbody) hkind

end EditChain.Migration

namespace EditChain.Activity

open Migration

variable [AddressHash] [Postcard payloads] [SerializedSize payloads]

/-- The operation codec loses nothing and its schemas never overlap. -/
theorem operation_codec_lossless (hserializes : Serializes (P := payloads)) (op : Op payloads)
    (bytes : Bytes) :
    (∀ encoded, encodeOp op = .ok encoded →
        decodeOp encoded = .ok op ∧ encodedOpLen op = .ok encoded.length)
      ∧ ((∃ error, encodedOpLen op = .error error) ↔ ∃ error, encodeOp op = .error error)
      ∧ (decodeOp bytes = .ok op →
        (∀ source, op.source = some source → source.id = op.id)
          ∧ (∀ record, op.kind = .activity record → (∃ body, bytes = recordMagic ++ 3 :: body)
            ∧ record.validate = .ok () ∧ matchesEnvelope record op = true)
          ∧ (∀ later, later ≠ [] → ∀ other : Op payloads, decodeOp (bytes ++ later) ≠ .ok other)
          ∧ ∃ encoded, encodeOp op = .ok encoded) := by
  refine ⟨?_, ?_, ?_⟩
  · intro encoded hencoded
    refine ⟨decodeOp_encodeOp hserializes hencoded, ?_⟩
    rw [encodedOpLen_eq hserializes, hencoded]
    rfl
  · rw [encodedOpLen_eq hserializes]
    cases encodeOp op with
    | error error => exact ⟨fun _ => ⟨error, rfl⟩, fun _ => ⟨error, rfl⟩⟩
    | ok encoded =>
      constructor
      · rintro ⟨error, herror⟩
        cases herror
      · rintro ⟨error, herror⟩
        cases herror
  · intro hdecoded
    obtain ⟨htake, hplace⟩ := decodeOp_eq_ok.mp hdecoded
    have hspelled := takeEnvelope_eq_ok.mp htake
    refine ⟨misplaced_eq_false.mp hplace, ?_, ?_, hspelled.written hserializes hplace⟩
    · intro record hkind
      obtain ⟨hbody, hinto⟩ := hspelled.activity hkind
      obtain ⟨hvalid, -, hmatches⟩ := intoOp_eq_some_iff.mp hinto
      refine ⟨hbody, ?_, hmatches⟩
      have hok : record.validate.isOk = true := hvalid
      cases hvalidate : record.validate with
      | error error =>
        rw [hvalidate] at hok
        cases hok
      | ok _ => rfl
    · intro later hlater other hother
      have hlonger := takeEnvelope_eq_ok.mpr (hspelled.append hserializes later)
      obtain ⟨hfound, -⟩ := decodeOp_eq_ok.mp hother
      rw [hlonger] at hfound
      cases hfound
      exact hlater rfl

end EditChain.Activity

namespace EditChain.Activity

open Migration

section Messages

/-- The address of the recorded message derives its identity. -/
local instance wireAddresses : AddressHash where
  id source := if source = ⟨1, 0, 42⟩ then messageId else 0

/-- The context of the recorded message. -/
def messageContext : Context := ⟨1, .unixMs 1700000000000, .none, 8⟩

/-- The payload of the recorded message: the text `hello world`. -/
def messageKind : PlainKind :=
  .message (.inline [104, 101, 108, 108, 111, 32, 119, 111, 114, 108, 100]) .empty

/-- The recorded message as an operation. -/
def messageOp : Op payloads :=
  ⟨messageId, some ⟨1, 0, 42⟩, .none, messageContext, .plain messageKind⟩

/-- The recorded message in the legacy envelope. -/
def messageLegacy : LegacyOp payloads :=
  ⟨⟨1, 0, 42⟩, .none, messageContext, .plain messageKind⟩

/-- The bytes of the message behind its schema byte. -/
def messageWire : Bytes := idBytes messageId ++ [1, 1, 0, 42] ++ messageBody

/-- A record of schema three: an agent with the label `a`, recorded by item 8. -/
def authorRecord : Operation :=
  ⟨7, ⟨7⟩, none, ⟨8⟩, none, none, none, none, [], [], none, none,
    .author ⟨.inline [97], .agent, .empty, .empty⟩⟩

/-- The record in its envelope. -/
def authorOp : Op payloads := ⟨7, none, .none, authorRecord.context, .activity authorRecord⟩

/-- The bytes of the record behind its schema byte. -/
def authorWire : Bytes :=
  idBytes 7 ++ idBytes 7 ++ [0] ++ idBytes 8 ++ [0, 0, 0, 0, 0, 0, 0, 0] ++ [7, 1, 1, 97, 1, 0, 0]

/-- Serialization of the recorded message and of the record. -/
local instance wirePostcard : Postcard payloads where
  takeOp bytes :=
    if messageWire <+: bytes then .ok (messageOp, bytes.drop messageWire.length)
    else .error ⟨"Hit the end of buffer, expected more data"⟩
  takeLegacy bytes :=
    if messageV1 <+: bytes then .ok (messageLegacy, bytes.drop messageV1.length)
    else .error ⟨"Hit the end of buffer, expected more data"⟩
  takeActivity bytes :=
    if authorWire <+: bytes then .ok (authorRecord, bytes.drop authorWire.length)
    else .error ⟨"Hit the end of buffer, expected more data"⟩
  opBytes op :=
    match op with
    | ⟨id, source, parents, context, .plain kind⟩ =>
      if id = messageId ∧ source = some ⟨1, 0, 42⟩ ∧ parents = .none ∧ context = messageContext
          ∧ kind = messageKind then .ok messageWire
      else .error serdeSerCustom
    | _ => .error serdeSerCustom
  legacyBytes legacy :=
    match legacy with
    | ⟨id, parents, context, .plain kind⟩ =>
      if id = ⟨1, 0, 42⟩ ∧ parents = .none ∧ context = messageContext ∧ kind = messageKind then
        .ok messageV1
      else .error serdeSerCustom
    | _ => .error serdeSerCustom
  activityBytes record := if record = authorRecord then .ok authorWire else .error serdeSerCustom

local instance wireSizes : SerializedSize payloads where
  opSize op := (Postcard.opBytes op).map List.length
  activitySize record := (Postcard.activityBytes record).map List.length

lemma take_front {α : Type} {front bytes rest : Bytes} {value found : α} {error : PostcardError}
    (h : (if front <+: bytes then .ok (value, bytes.drop front.length) else .error error
      : Except PostcardError (α × Bytes)) = .ok (found, rest)) :
    found = value ∧ ∀ later, (if front <+: bytes ++ later then
        .ok (value, (bytes ++ later).drop front.length) else .error error
      : Except PostcardError (α × Bytes)) = .ok (found, rest ++ later) := by
  split at h
  · next hfront =>
    cases h
    refine ⟨rfl, fun later => ?_⟩
    rw [if_pos (hfront.trans (List.prefix_append _ _)),
      List.drop_append_of_le_length hfront.length_le]
  · cases h

lemma wire_serializes : Serializes (P := payloads) where
  op op bytes h := by
    have hbytes : op = messageOp ∧ bytes = messageWire := by
      obtain ⟨id, source, parents, context, kind⟩ := op
      simp only [Postcard.opBytes] at h
      cases kind with
      | plain kind =>
        simp only at h
        split at h
        · next hop =>
          cases h
          obtain ⟨rfl, rfl, rfl, rfl, rfl⟩ := hop
          exact ⟨rfl, rfl⟩
        · cases h
      | _ => cases h
    obtain ⟨rfl, rfl⟩ := hbytes
    simp only [Postcard.takeOp]
    rw [if_pos (List.prefix_refl _), List.drop_length]
  activity record bytes h := by
    simp only [Postcard.activityBytes] at h
    split at h
    · next hrecord =>
      cases h
      simp only [Postcard.takeActivity]
      rw [if_pos (List.prefix_refl _), List.drop_length, hrecord]
    · cases h
  opWritten h := ⟨messageWire, by rw [(take_front h).1]; decide +kernel⟩
  legacyWritten h := ⟨messageWire, by rw [(take_front h).1]; decide +kernel⟩
  activityWritten h := ⟨authorWire, by rw [(take_front h).1]; exact if_pos rfl⟩
  opFront h := (take_front h).2
  legacyFront h := (take_front h).2
  activityFront h := (take_front h).2
  legacyMagic {bytes} h found hfound := by
    simp only [Postcard.takeLegacy] at hfound
    split at hfound
    · next hfront =>
      have hlong : messageV1.length ≤ recordMagic.length :=
        Nat.le_trans hfront.length_le h.length_le
      exact absurd hlong (by decide)
    · cases hfound
  opSize _ := rfl
  activitySize _ := rfl

/-- The recorded message under schema one, and the record under schema three. -/
theorem operation_codec_lossless_wires :
    (encodeOp messageOp = .ok messageV3 ∧ encodedOpLen messageOp = .ok 77
      ∧ decodeOp messageV3 = .ok messageOp
      ∧ ∀ later, later ≠ [] → ∀ other : Op payloads, decodeOp (messageV3 ++ later) ≠ .ok other)
    ∧ ∃ encoded, encodeOp authorOp = .ok encoded ∧ encodedOpLen authorOp = .ok 127
      ∧ decodeOp encoded = .ok authorOp ∧ encoded = recordMagic ++ 3 :: authorWire
      ∧ authorRecord.validate = .ok ()
      ∧ ∀ later, later ≠ [] → ∀ other : Op payloads, decodeOp (encoded ++ later) ≠ .ok other := by
  have hmessage : encodeOp messageOp = .ok messageV3 := by decide +kernel
  have hauthor : encodeOp authorOp = .ok (recordMagic ++ 3 :: authorWire) := by decide +kernel
  obtain ⟨hwritten, -, hread⟩ := operation_codec_lossless wire_serializes messageOp messageV3
  obtain ⟨hdecoded, hlength⟩ := hwritten messageV3 hmessage
  obtain ⟨hwritten', -, hread'⟩ :=
    operation_codec_lossless wire_serializes authorOp (recordMagic ++ 3 :: authorWire)
  obtain ⟨hdecoded', hlength'⟩ := hwritten' _ hauthor
  obtain ⟨-, hactivity, hlonger, -⟩ := hread' hdecoded'
  exact ⟨⟨hmessage, hlength, hdecoded, (hread hdecoded).2.2.1⟩, _, hauthor, hlength', hdecoded',
    rfl, (hactivity authorRecord rfl).2.1, hlonger⟩

end Messages

end EditChain.Activity
