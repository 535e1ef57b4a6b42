import EditChain.Lib.Postcard
import EditChain.Migration.RecordTheorems
import EditChain.Store.FrameTheorems

/-!
# Which records migration accepts

A migrated record keeps its meaning, is not migrated again, and stays distinct from the migrated
form of any other unversioned record. Migration refuses, or passes on too large a record, in three
cases: an unversioned envelope that holds an activity, a rewritten envelope that outgrows the
largest record, and another spelling of an envelope that has no room for its wrapper.
-/

namespace EditChain.Migration

open Store Fallible

variable {P : Payloads} [AddressHash] [Postcard P]

/-! ## Meaning and distinctness -/

/-- What was migrated stays as it is. -/
lemma migrateRecord_idem {bytes out : Bytes} (h : migrateRecord (P := P) bytes = .ok out) :
    migrateRecord (P := P) out = .ok out := by
  have hversioned : recordMagic <+: out → migrateRecord (P := P) out = .ok out := by
    intro hmagic
    unfold migrateRecord
    rw [if_pos hmagic]
  rcases migrateRecord_cases h with ⟨hmagic, rfl⟩ | ⟨-, rfl, -⟩ | ⟨legacy, hlegacy, hencode⟩
    | ⟨legacy, hlegacy, rfl⟩
  · exact h
  · exact h
  · exact hversioned (Respelled.magic ⟨legacy, .inl ⟨hlegacy, hencode⟩⟩).1
  · exact hversioned (List.prefix_append _ _)

/-- An unversioned record is kept or respelled. -/
lemma migrateRecord_unversioned {bytes out : Bytes} (hmagic : ¬ recordMagic <+: bytes)
    (h : migrateRecord (P := P) bytes = .ok out) : out = bytes ∨ Respelled (P := P) bytes out := by
  rcases migrateRecord_cases h with ⟨hversioned, -⟩ | ⟨-, hkept, -⟩ | ⟨legacy, hlegacy⟩
    | ⟨legacy, hlegacy⟩
  · exact absurd hversioned hmagic
  · exact .inl hkept
  · exact .inr ⟨legacy, .inl hlegacy⟩
  · exact .inr ⟨legacy, .inr hlegacy⟩

/-- Unversioned records migrate to distinct records. -/
lemma migrateRecord_injective (hround : RoundTrip (P := P))
    (hids : Function.Injective SourceId.id) {a b out : Bytes} (ha : ¬ recordMagic <+: a)
    (hb : ¬ recordMagic <+: b) (hmigrated : migrateRecord (P := P) a = .ok out)
    (hmigrated' : migrateRecord (P := P) b = .ok out) : a = b := by
  -- a kept record has no magic, a respelled one starts with it
  rcases migrateRecord_unversioned ha hmigrated with rfl | hrespelled
  · rcases migrateRecord_unversioned hb hmigrated' with rfl | hrespelled'
    · rfl
    · exact absurd hrespelled'.magic.1 ha
  · rcases migrateRecord_unversioned hb hmigrated' with rfl | hrespelled'
    · exact absurd hrespelled.magic.1 hb
    · exact hrespelled.injective hids hround hrespelled'

/-- Migrating a record preserves its meaning: it decodes to the same operation, or fails to decode
as before, and migrating it again changes nothing. Unversioned records stay distinct. -/
theorem migrate_record_faithful (hround : RoundTrip (P := P))
    (hids : Function.Injective SourceId.id) :
    (∀ bytes out, migrateRecord (P := P) bytes = .ok out →
      (∀ op : Op P, decodeOp bytes = .ok op → decodeOp out = .ok op)
      ∧ ((∀ op : Op P, decodeOp bytes ≠ .ok op) → ∀ op : Op P, decodeOp out ≠ .ok op)
      ∧ migrateRecord (P := P) out = .ok out)
    ∧ ∀ a b out, ¬ recordMagic <+: a → ¬ recordMagic <+: b →
      migrateRecord (P := P) a = .ok out → migrateRecord (P := P) b = .ok out → a = b := by
  refine ⟨fun bytes out h => ⟨fun op hop => ?_, fun hfails op hop => ?_, migrateRecord_idem h⟩, ?_⟩
  · exact (decodeOp_migrateRecord hround h op).mpr hop
  · exact hfails op ((decodeOp_migrateRecord hround h op).mp hop)
  · intro a b out ha hb hmigrated hmigrated'
    exact migrateRecord_injective hround hids ha hb hmigrated hmigrated'

omit [AddressHash] in
/-- The recorded message. -/
theorem migrate_record_faithful_message :
    @migrateRecord messagePayloads messageAddresses messagePostcard messageV1 = .ok messageV3
      ∧ @migrateRecord messagePayloads messageAddresses messagePostcard messageV3 = .ok messageV3
      ∧ @decodeOp messagePayloads messageAddresses messagePostcard messageV3 = .ok messageOp := by
  have hmigrated : @migrateRecord messagePayloads messageAddresses messagePostcard messageV1
      = .ok messageV3 := by decide +kernel
  obtain ⟨hop, -, hagain⟩ :=
    (@migrate_record_faithful messagePayloads messageAddresses messagePostcard
      messagePostcard_roundTrip messageAddresses_injective).1 messageV1 messageV3 hmigrated
  exact ⟨hmigrated, hagain, hop messageOp rfl⟩

/-! ## Sizes -/

/-- The bytes of an address on the wire. -/
def addressBytes (source : SourceId) : Bytes :=
  Postcard.u64 source.node.toNat ++ Postcard.u32 source.boot.toNat
    ++ Postcard.u64 source.seq.toNat

/-- The addresses that a legacy operation refers to. -/
def LegacyOp.references (legacy : LegacyOp P) : List SourceId :=
  legacy.parents.toList ++
    match legacy.kind with
    | .plain _ => []
    | .note targetIds _ => targetIds
    | .gitLink source _ => [source]
    | .gitCommit importedRecord _ => importedRecord.toList
    | .activity _ => []

/-- The size of the references of a legacy operation on the wire. -/
def LegacyOp.referenceBytes (legacy : LegacyOp P) : ℕ :=
  (legacy.references.map fun source => (addressBytes source).length).sum

variable (P) in
/-- What the wire format says about the operations that migration rewrites: they are always
serialized, and the canonical operation differs from the legacy one in an identity of 32 bytes and a
tag before its own address, and in identities of 32 bytes in place of the addresses it refers to. -/
structure WireSizes : Prop where
  legacy : ∀ legacy : LegacyOp P, legacy.kind.isActivity = false →
    ∃ bytes, Postcard.legacyBytes legacy = .ok bytes
  canonical : ∀ (legacy : LegacyOp P) (bytes : Bytes), legacy.kind.isActivity = false →
    Postcard.legacyBytes legacy = .ok bytes →
      ∃ body, Postcard.opBytes legacy.intoCanonical = .ok body
        ∧ body.length + legacy.referenceBytes
          = bytes.length + 33 + 32 * legacy.references.length

variable (P) in
/-- A record is versioned, or does not fill the legacy envelope, or fills it with an operation that
is no activity and has room to grow: 48 bytes and what its references grow by if it is spelled as
the legacy encoder does, and 15 bytes otherwise. -/
def Migratable (bytes : Bytes) : Prop :=
  recordMagic <+: bytes ∨ ∀ legacy : LegacyOp P, Postcard.takeLegacy bytes = .ok (legacy, []) →
    legacy.kind.isActivity = false
    ∧ (Postcard.legacyBytes legacy = .ok bytes →
      bytes.length + 48 + 32 * legacy.references.length
        ≤ maxRecordBytes + legacy.referenceBytes)
    ∧ (Postcard.legacyBytes legacy ≠ .ok bytes → bytes.length + 15 ≤ maxRecordBytes)

variable (P) in
/-- Migration accepts a record: the result fits into a record, the writer takes it, and it is the
record itself if that does not decode. -/
def Accepted [Checksum] (bytes : Bytes) : Prop :=
  ∃ out, migrateRecord (P := P) bytes = .ok out ∧ out.length ≤ maxRecordBytes
    ∧ (∀ sequence flags, ∃ frame, encodeRecords sequence [⟨flags, out⟩] = .ok frame)
    ∧ ((∀ op : Op P, decodeOp bytes ≠ .ok op) → out = bytes)

omit [AddressHash] [Postcard P] in
/-- The writer takes every record of at most the largest size. -/
lemma encodeRecords_single [Checksum] (sequence : UInt32) (flags : UInt8) {data : Bytes}
    (h : data.length ≤ maxRecordBytes) :
    ∃ frame, encodeRecords sequence [⟨flags, data⟩] = .ok frame := by
  have hfits : Fits [⟨flags, data⟩] := by
    refine ⟨by simpa using h, ?_⟩
    have hmax : maxRecordBytes + 45 ≤ maxFrameBytes := by decide
    have hsize : frameSize [⟨flags, data⟩] = data.length + 45 := by
      simp [frameSize, frameOverhead, headerBytes, recordOverhead]
      omega
    omega
  exact ⟨_, by rw [encodeRecords_eq, if_pos hfits]⟩

/-- An accepted record, from its three parts that are not automatic. -/
lemma accepted_iff [Checksum] (bytes : Bytes) :
    Accepted P bytes ↔ ∃ out, migrateRecord (P := P) bytes = .ok out
      ∧ out.length ≤ maxRecordBytes ∧ ((∀ op : Op P, decodeOp bytes ≠ .ok op) → out = bytes) := by
  constructor
  · rintro ⟨out, hout, hsize, -, hkept⟩
    exact ⟨out, hout, hsize, hkept⟩
  · rintro ⟨out, hout, hsize, hkept⟩
    exact ⟨out, hout, hsize, fun sequence flags => encodeRecords_single sequence flags hsize, hkept⟩

/-- Migration of a record that fills the legacy envelope. -/
lemma migrateRecord_of_legacy {bytes : Bytes} {legacy : LegacyOp P}
    (hmagic : ¬ recordMagic <+: bytes) (hlegacy : Postcard.takeLegacy bytes = .ok (legacy, [])) :
    migrateRecord (P := P) bytes = do
      let canonical ← Postcard.legacyBytes legacy
      if canonical = bytes then encodeOp legacy.intoCanonical
      else return recordMagic ++ 2 :: bytes := by
  unfold migrateRecord
  rw [if_neg hmagic, hlegacy]
  rfl

/-- A record that does not fill the legacy envelope is kept. -/
lemma migrateRecord_of_unreadable {bytes : Bytes} (hmagic : ¬ recordMagic <+: bytes)
    (h : ∀ legacy : LegacyOp P, Postcard.takeLegacy bytes ≠ .ok (legacy, [])) :
    migrateRecord (P := P) bytes = .ok bytes := by
  unfold migrateRecord
  rw [if_neg hmagic]
  split
  · rfl
  · next legacy remaining hlegacy =>
    have hremaining : remaining ≠ [] := by
      rintro rfl
      exact h legacy hlegacy
    rw [if_pos hremaining]

/-- An operation without an activity is written under schema 1. -/
lemma encodeOp_of_plain {legacy : LegacyOp P} (hkind : legacy.kind.isActivity = false)
    {body : Bytes} (hbody : Postcard.opBytes legacy.intoCanonical = .ok body) :
    encodeOp legacy.intoCanonical = .ok (recordMagic ++ recordSchema :: body) := by
  unfold encodeOp
  simp only [misplaced_intoCanonical, Bool.false_eq_true, if_false]
  cases hlegacy : legacy.kind with
  | activity record =>
    rw [hlegacy] at hkind
    cases hkind
  | _ =>
    simp only [LegacyOp.intoCanonical, hlegacy, OpKind.map] at hbody ⊢
    rw [hbody]
    rfl

/-- Migration does not accept an activity in the legacy envelope. -/
lemma not_accepted_of_activity [Checksum] {bytes : Bytes} {legacy : LegacyOp P}
    (hmagic : ¬ recordMagic <+: bytes) (hlegacy : Postcard.takeLegacy bytes = .ok (legacy, []))
    (hkind : legacy.kind.isActivity = true) : ¬ Accepted P bytes := by
  rw [accepted_iff]
  rintro ⟨out, hout, -, hkept⟩
  have hfails : ∀ op : Op P, decodeOp bytes ≠ .ok op := by
    intro op hop
    rw [decodeOp_of_legacy hmagic hlegacy, hkind] at hop
    cases hop
  rw [migrateRecord_of_legacy hmagic hlegacy] at hout
  obtain ⟨canonical, -, hout⟩ := bind_eq_ok.mp hout
  split at hout
  · -- the encoder refuses the activity, whose envelope has a source address
    obtain ⟨hplain, -⟩ := encodeOp_intoCanonical hout
    rw [hkind] at hplain
    cases hplain
  · -- the wrapper is not what the reader saw
    have hsame := congrArg List.length (hkept hfails)
    rw [pure_eq_ok] at hout
    rw [← hout, List.length_append, List.length_cons] at hsame
    omega

/-- Migration accepts any other operation in the legacy envelope if its new spelling fits. -/
lemma accepted_of_plain_iff [Checksum] {bytes out : Bytes} {legacy : LegacyOp P}
    (hmagic : ¬ recordMagic <+: bytes) (hlegacy : Postcard.takeLegacy bytes = .ok (legacy, []))
    (hkind : legacy.kind.isActivity = false) (hout : migrateRecord (P := P) bytes = .ok out) :
    Accepted P bytes ↔ out.length ≤ maxRecordBytes := by
  have hdecodes : decodeOp bytes = .ok legacy.intoCanonical := by
    rw [decodeOp_of_legacy hmagic hlegacy, hkind]
    rfl
  rw [accepted_iff]
  constructor
  · rintro ⟨other, hother, hsize, -⟩
    rw [hout] at hother
    cases hother
    exact hsize
  · intro hsize
    exact ⟨out, hout, hsize, fun hfails => absurd hdecodes (hfails _)⟩

/-- Migration accepts exactly the records that are migratable. -/
theorem migration_accepts_iff [Checksum] (hsizes : WireSizes P) {bytes : Bytes}
    (hbytes : bytes.length ≤ maxRecordBytes) : Accepted P bytes ↔ Migratable P bytes := by
  have hmagicLength : recordMagic.length = 14 := rfl
  by_cases hmagic : recordMagic <+: bytes
  · refine iff_of_true ?_ (.inl hmagic)
    rw [accepted_iff]
    exact ⟨bytes, by unfold migrateRecord; rw [if_pos hmagic], hbytes, fun _ => rfl⟩
  by_cases hread : ∃ legacy : LegacyOp P, Postcard.takeLegacy bytes = .ok (legacy, [])
  · obtain ⟨legacy, hlegacy⟩ := hread
    have hmigratable : Migratable P bytes ↔ legacy.kind.isActivity = false
        ∧ (Postcard.legacyBytes legacy = .ok bytes →
          bytes.length + 48 + 32 * legacy.references.length
            ≤ maxRecordBytes + legacy.referenceBytes)
        ∧ (Postcard.legacyBytes legacy ≠ .ok bytes → bytes.length + 15 ≤ maxRecordBytes) := by
      unfold Migratable
      rw [or_iff_right hmagic]
      constructor
      · exact fun h => h legacy hlegacy
      · intro h other hother
        rw [hlegacy] at hother
        cases hother
        exact h
    rw [hmigratable]
    cases hkind : legacy.kind.isActivity with
    | true =>
      exact iff_of_false (not_accepted_of_activity hmagic hlegacy hkind) fun h => by cases h.1
    | false =>
      obtain ⟨canonical, hcanonical⟩ := hsizes.legacy legacy hkind
      have hmigrated := migrateRecord_of_legacy hmagic hlegacy
      rw [hcanonical] at hmigrated
      by_cases hspelled : canonical = bytes
      · -- rewritten under schema 1
        subst hspelled
        obtain ⟨body, hbody, hgrowth⟩ := hsizes.canonical legacy canonical hkind hcanonical
        have hout : migrateRecord (P := P) canonical
            = .ok (recordMagic ++ recordSchema :: body) := by
          rw [hmigrated]
          simp only [bind, Except.bind, if_true]
          exact encodeOp_of_plain hkind hbody
        rw [accepted_of_plain_iff hmagic hlegacy hkind hout, List.length_append,
          List.length_cons, hmagicLength]
        simp only [hcanonical, true_and, forall_const, ne_eq, not_true_eq_false, IsEmpty.forall_iff,
          and_true]
        omega
      · -- wrapped under schema 2
        have hout : migrateRecord (P := P) bytes = .ok (recordMagic ++ 2 :: bytes) := by
          rw [hmigrated]
          simp only [bind, Except.bind, if_neg hspelled]
          rfl
        have hne : Postcard.legacyBytes legacy ≠ .ok bytes := by
          rw [hcanonical]
          intro hsame
          exact hspelled (Except.ok.inj hsame)
        rw [accepted_of_plain_iff hmagic hlegacy hkind hout, List.length_append,
          List.length_cons, hmagicLength]
        simp only [hne, true_and, IsEmpty.forall_iff, ne_eq, not_false_eq_true, forall_const]
        omega
  · have hnone : ∀ legacy : LegacyOp P, Postcard.takeLegacy bytes ≠ .ok (legacy, []) :=
      fun legacy hlegacy => hread ⟨legacy, hlegacy⟩
    refine iff_of_true ?_ (.inr fun legacy hlegacy => absurd hlegacy (hnone legacy))
    rw [accepted_iff]
    exact ⟨bytes, migrateRecord_of_unreadable hmagic hnone, hbytes, fun _ => rfl⟩

end EditChain.Migration

/-! ## A message and an activity in the legacy envelope -/

namespace EditChain.Migration

open Store

/-- What is only carried along, as it is on the wire. -/
@[reducible] def wirePayloads : Payloads where
  Plain := Bytes
  Note := Bytes
  Link := Bytes
  Commit := Bytes
  Context := Bytes
  Activity := Bytes
  validate _ := true
  activityId _ := 0
  activityParents _ := []
  activityContext _ := []

/-- A parent set on the wire. -/
def parentBytes {Id : Type} (reference : Id → Bytes) : ParentSet Id → Bytes
  | .none => [0]
  | .one first => 1 :: reference first
  | .two first second => 2 :: (reference first ++ reference second)

/-- A payload on the wire, after its discriminant. -/
def kindBytes {Id : Type} (reference : Id → Bytes) : OpKind wirePayloads Id → Bytes
  | .plain payload => payload
  | .note targetIds rest => 8 :: (Postcard.seq reference targetIds ++ rest)
  | .gitLink source rest => 11 :: (reference source ++ rest)
  | .gitCommit importedRecord rest => 10 :: (Postcard.option reference importedRecord ++ rest)
  | .activity record => 14 :: record

/-- Actor 1, a wall clock, no scope and the message tag. -/
def helloContext : Bytes := [1, 2, 128, 208, 149, 255, 188, 49, 0, 8]

/-- The recorded message in the legacy envelope. -/
def helloLegacy : LegacyOp wirePayloads :=
  ⟨messageSource, .none, helloContext, .plain (messageBody.drop 11)⟩

/-- A comment without targets and content, its identities all zero. -/
def commentBytes : Bytes :=
  List.replicate 64 0 ++ [0] ++ List.replicate 32 0 ++ List.replicate 8 0 ++ [6, 0, 0, 0, 1, 0, 0]

/-- The comment in the legacy envelope. -/
def commentLegacy : LegacyOp wirePayloads :=
  ⟨messageSource, .none, helloContext, .activity commentBytes⟩

/-- The comment in the legacy encoding. -/
def commentV1 : Bytes := [1, 0, 42, 0] ++ helloContext ++ 14 :: commentBytes

/-- The serialization library: its writers, and its reader on the two records. -/
@[reducible] def wirePostcard : Postcard wirePayloads where
  takeOp _ := .error ⟨"Hit the end of buffer, expected more data"⟩
  takeLegacy bytes :=
    if bytes = messageV1 then .ok (helloLegacy, [])
    else if bytes = commentV1 then .ok (commentLegacy, [])
    else .error ⟨"Hit the end of buffer, expected more data"⟩
  takeActivity _ := .error ⟨"Hit the end of buffer, expected more data"⟩
  opBytes op := .ok (idBytes op.id ++ Postcard.option addressBytes op.source
    ++ parentBytes idBytes op.parents ++ op.context ++ kindBytes idBytes op.kind)
  legacyBytes legacy := .ok (addressBytes legacy.id ++ parentBytes addressBytes legacy.parents
    ++ legacy.context ++ kindBytes addressBytes legacy.kind)
  activityBytes record := .ok record

lemma length_idBytes (id : OpId) : (idBytes id).length = 32 := by simp [idBytes]

lemma length_flatMap_addresses (hash : SourceId → OpId) (sources : List SourceId) :
    ((sources.map hash).flatMap idBytes).length
        + (sources.map fun source => (addressBytes source).length).sum
      = (sources.flatMap addressBytes).length + 32 * sources.length := by
  induction sources with
  | nil => rfl
  | cons source sources ih =>
    simp only [List.map_cons, List.flatMap_cons, List.length_append, List.sum_cons,
      List.length_cons, length_idBytes]
    omega

lemma wire_sizes : @WireSizes wirePayloads messageAddresses wirePostcard := by
  refine @WireSizes.mk wirePayloads messageAddresses wirePostcard
    (fun legacy _ => ⟨_, rfl⟩) fun legacy bytes hkind hbytes => ⟨_, rfl, ?_⟩
  cases hbytes
  obtain ⟨id, parents, context, kind⟩ := legacy
  have hparents : (parentBytes idBytes (parents.map (@SourceId.id messageAddresses))).length
      + (parents.toList.map fun source => (addressBytes source).length).sum
      = (parentBytes addressBytes parents).length + 32 * parents.toList.length := by
    cases parents <;>
      simp [parentBytes, ParentSet.map, ParentSet.toList, length_idBytes] <;> omega
  cases kind with
  | activity record => cases hkind
  | plain payload =>
    simp only [LegacyOp.intoCanonical, LegacyOp.referenceBytes, LegacyOp.references, OpKind.map,
      kindBytes, List.append_nil, List.length_append, length_idBytes, Postcard.option,
      List.length_cons]
    omega
  | note targetIds rest =>
    have htargets := length_flatMap_addresses (@SourceId.id messageAddresses) targetIds
    simp only [LegacyOp.intoCanonical, LegacyOp.referenceBytes, LegacyOp.references, OpKind.map,
      kindBytes, List.map_append, List.sum_append, List.length_append, length_idBytes,
      Postcard.option, Postcard.seq, List.length_cons, List.length_map]
    omega
  | gitLink source rest =>
    simp only [LegacyOp.intoCanonical, LegacyOp.referenceBytes, LegacyOp.references, OpKind.map,
      kindBytes, List.map_append, List.sum_append, List.length_append, length_idBytes,
      Postcard.option, List.length_cons, List.map_cons, List.map_nil, List.sum_cons, List.sum_nil,
      List.length_nil]
    omega
  | gitCommit importedRecord rest =>
    cases importedRecord <;>
    simp only [LegacyOp.intoCanonical, LegacyOp.referenceBytes, LegacyOp.references, OpKind.map,
      kindBytes, List.map_append, List.sum_append, List.length_append, length_idBytes,
      Postcard.option, List.length_cons, List.map_cons, List.map_nil, List.sum_cons, List.sum_nil,
      List.length_nil, Option.map_none, Option.map_some, Option.toList_none, Option.toList_some] <;>
    omega

/-- The recorded message is accepted. -/
theorem migration_accepts_message :
    @Accepted wirePayloads messageAddresses wirePostcard crc32cChecksum messageV1 := by
  have hsmall : messageV1.length ≤ maxRecordBytes := by decide
  refine (@migration_accepts_iff wirePayloads messageAddresses wirePostcard crc32cChecksum
    wire_sizes messageV1 hsmall).mpr (.inr fun legacy hlegacy => ?_)
  have hread : wirePostcard.takeLegacy messageV1 = .ok (helloLegacy, []) := rfl
  have hspelled : wirePostcard.legacyBytes helloLegacy = .ok messageV1 := by decide +kernel
  rw [hread] at hlegacy
  cases hlegacy
  exact ⟨rfl, fun _ => by decide, fun hother => absurd hspelled hother⟩

/-- An activity in the legacy envelope is not: its migration fails. -/
theorem migration_refuses_comment :
    commentV1.length ≤ maxRecordBytes
      ∧ @migrateRecord wirePayloads messageAddresses wirePostcard commentV1 = .error serdeSerCustom
      ∧ ¬ @Accepted wirePayloads messageAddresses wirePostcard crc32cChecksum commentV1 := by
  refine ⟨by decide +kernel, by decide +kernel, ?_⟩
  exact @not_accepted_of_activity wirePayloads messageAddresses wirePostcard crc32cChecksum commentV1
    commentLegacy (by decide +kernel) (by rfl) rfl

end EditChain.Migration
