import EditChain.Lib.Fallible
import EditChain.Migration.Record

/-!
# What migration does to one record

A migrated record decodes to the same operation, or fails to decode as before. Two records that
decode migrate to the same bytes only if they are equal or one is the versioned spelling that the
other is rewritten to.
-/

namespace EditChain.Migration

open Fallible

variable {P : Payloads} [AddressHash] [Postcard P]

/-- What the serialization library promises: an operation is read back from its own bytes. -/
def RoundTrip : Prop :=
  ∀ (op : Op P) (bytes : Bytes), Postcard.opBytes op = .ok bytes →
    Postcard.takeOp bytes = .ok (op, [])

/-! ## Magic -/

omit [AddressHash] in
lemma stripMagic_append (bytes : Bytes) : stripMagic (recordMagic ++ bytes) = some bytes := by
  unfold stripMagic
  rw [if_pos (List.prefix_append _ _), List.drop_left]

omit [AddressHash] in
lemma stripMagic_of_not {bytes : Bytes} (h : ¬ recordMagic <+: bytes) :
    stripMagic bytes = none := by
  unfold stripMagic
  rw [if_neg h]

/-! ## The three ways -/

/-- An unversioned record in the legacy encoder's own spelling. -/
def Canonical (legacy : LegacyOp P) (bytes : Bytes) : Prop :=
  ¬ recordMagic <+: bytes ∧ Postcard.takeLegacy bytes = .ok (legacy, [])
    ∧ Postcard.legacyBytes legacy = .ok bytes

/-- An unversioned record in another spelling. -/
def Noncanonical (legacy : LegacyOp P) (bytes : Bytes) : Prop :=
  ¬ recordMagic <+: bytes ∧ Postcard.takeLegacy bytes = .ok (legacy, [])
    ∧ ∃ canonical, Postcard.legacyBytes legacy = .ok canonical ∧ canonical ≠ bytes

/-- What an accepted record migrates to. -/
lemma migrateRecord_cases {bytes out : Bytes} (h : migrateRecord (P := P) bytes = .ok out) :
    (recordMagic <+: bytes ∧ out = bytes)
      ∨ (¬ recordMagic <+: bytes ∧ out = bytes
        ∧ ∀ legacy : LegacyOp P, Postcard.takeLegacy bytes ≠ .ok (legacy, []))
      ∨ (∃ legacy : LegacyOp P, Canonical legacy bytes ∧ encodeOp legacy.intoCanonical = .ok out)
      ∨ ∃ legacy : LegacyOp P, Noncanonical legacy bytes ∧ out = recordMagic ++ 2 :: bytes := by
  unfold migrateRecord at h
  split at h
  · next hmagic =>
    cases h
    exact .inl ⟨hmagic, rfl⟩
  · next hmagic =>
    split at h
    · next error hlegacy =>
      cases h
      refine .inr (.inl ⟨hmagic, rfl, fun legacy hok => ?_⟩)
      rw [hlegacy] at hok
      cases hok
    · next legacy remaining hlegacy =>
      split at h
      · next hremaining =>
        cases h
        refine .inr (.inl ⟨hmagic, rfl, fun legacy' hok => ?_⟩)
        rw [hlegacy] at hok
        cases hok
        exact hremaining rfl
      · next hremaining =>
        rw [not_not] at hremaining
        rw [hremaining] at hlegacy
        obtain ⟨canonical, hcanonical, h⟩ := bind_eq_ok.mp h
        split at h
        · next heq =>
          rw [heq] at hcanonical
          exact .inr (.inr (.inl ⟨legacy, ⟨hmagic, hlegacy, hcanonical⟩, h⟩))
        · next hne =>
          rw [pure_eq_ok] at h
          exact .inr (.inr (.inr ⟨legacy, ⟨hmagic, hlegacy, canonical, hcanonical, hne⟩, h.symm⟩))

/-- The legacy envelope carries its source address, so that only the schema without activities
takes it. -/
lemma encodeOp_intoCanonical {legacy : LegacyOp P} {out : Bytes}
    (h : encodeOp legacy.intoCanonical = .ok out) :
    legacy.kind.isActivity = false
      ∧ ∃ body, Postcard.opBytes legacy.intoCanonical = .ok body
        ∧ out = recordMagic ++ recordSchema :: body := by
  unfold encodeOp at h
  obtain ⟨-, h⟩ := guard_eq_ok.mp h
  cases hkind : legacy.kind with
  | activity record =>
    have hcanonical : legacy.intoCanonical.kind = .activity record := by
      simp [LegacyOp.intoCanonical, hkind, OpKind.map]
    have hmatches : matchesEnvelope record legacy.intoCanonical = false := by
      simp [matchesEnvelope, LegacyOp.intoCanonical]
    rw [hcanonical] at h
    simp only [hmatches] at h
    obtain ⟨-, h⟩ := guard_eq_ok.mp h
    cases h
  | plain payload =>
    have hcanonical : legacy.intoCanonical.kind = .plain payload := by
      simp [LegacyOp.intoCanonical, hkind, OpKind.map]
    rw [hcanonical] at h
    obtain ⟨body, hbody, h⟩ := bind_eq_ok.mp h
    exact ⟨rfl, body, hbody, (pure_eq_ok.mp h).symm⟩
  | note targetIds rest =>
    have hcanonical : legacy.intoCanonical.kind = .note (targetIds.map SourceId.id) rest := by
      simp [LegacyOp.intoCanonical, hkind, OpKind.map]
    rw [hcanonical] at h
    obtain ⟨body, hbody, h⟩ := bind_eq_ok.mp h
    exact ⟨rfl, body, hbody, (pure_eq_ok.mp h).symm⟩
  | gitLink source rest =>
    have hcanonical : legacy.intoCanonical.kind = .gitLink source.id rest := by
      simp [LegacyOp.intoCanonical, hkind, OpKind.map]
    rw [hcanonical] at h
    obtain ⟨body, hbody, h⟩ := bind_eq_ok.mp h
    exact ⟨rfl, body, hbody, (pure_eq_ok.mp h).symm⟩
  | gitCommit importedRecord rest =>
    have hcanonical : legacy.intoCanonical.kind
        = .gitCommit (importedRecord.map SourceId.id) rest := by
      simp [LegacyOp.intoCanonical, hkind, OpKind.map]
    rw [hcanonical] at h
    obtain ⟨body, hbody, h⟩ := bind_eq_ok.mp h
    exact ⟨rfl, body, hbody, (pure_eq_ok.mp h).symm⟩

/-! ## Decoding -/

omit [Postcard P] in
lemma misplaced_intoCanonical (legacy : LegacyOp P) : legacy.intoCanonical.misplaced = false := by
  simp [Op.misplaced, LegacyOp.intoCanonical]

lemma takeCanonical_of_legacy {legacy : LegacyOp P} {bytes : Bytes}
    (h : Postcard.takeLegacy bytes = .ok (legacy, [])) :
    takeCanonical bytes = if legacy.kind.isActivity then .error badEncoding
      else .ok (legacy.intoCanonical, []) := by
  unfold takeCanonical
  rw [h]
  simp only [bind, Except.bind]
  cases legacy.kind.isActivity with
  | true => rfl
  | false => rfl

/-- A record that the legacy envelope fills decodes to its canonical operation. -/
lemma decodeOp_of_legacy {legacy : LegacyOp P} {bytes : Bytes} (hmagic : ¬ recordMagic <+: bytes)
    (h : Postcard.takeLegacy bytes = .ok (legacy, [])) :
    decodeOp bytes = if legacy.kind.isActivity then .error badEncoding
      else .ok legacy.intoCanonical := by
  unfold decodeOp takeEnvelope
  rw [stripMagic_of_not hmagic]
  simp only [takeCanonical_of_legacy h]
  cases legacy.kind.isActivity with
  | true => rfl
  | false =>
    simp only [Bool.false_eq_true, if_false, bind, Except.bind]
    simp only [misplaced_intoCanonical, Bool.false_eq_true, if_false, ne_eq, not_true_eq_false]
    rfl

lemma decodeOp_schemaTwo {bytes : Bytes} (hmagic : ¬ recordMagic <+: bytes) :
    decodeOp (P := P) (recordMagic ++ 2 :: bytes) = decodeOp bytes := by
  have htake : takeEnvelope (P := P) (recordMagic ++ 2 :: bytes) = takeEnvelope bytes := by
    unfold takeEnvelope
    rw [stripMagic_append, stripMagic_of_not hmagic]
    rfl
  unfold decodeOp
  rw [htake]

lemma decodeOp_schemaOne (hround : RoundTrip (P := P)) {legacy : LegacyOp P} {body : Bytes}
    (hkind : legacy.kind.isActivity = false)
    (hbody : Postcard.opBytes legacy.intoCanonical = .ok body) :
    decodeOp (recordMagic ++ recordSchema :: body) = .ok legacy.intoCanonical := by
  have hcanonical : legacy.intoCanonical.kind.isActivity = false := by
    cases hlegacy : legacy.kind with
    | activity record =>
      rw [hlegacy] at hkind
      cases hkind
    | _ => simp [LegacyOp.intoCanonical, hlegacy, OpKind.map, OpKind.isActivity]
  have htake : takeEnvelope (P := P) (recordMagic ++ recordSchema :: body)
      = .ok (legacy.intoCanonical, []) := by
    unfold takeEnvelope
    rw [stripMagic_append]
    simp only [takeSchema, if_true]
    rw [hround _ _ hbody]
    simp only [bind, Except.bind, hcanonical, Bool.false_eq_true, if_false]
    rfl
  unfold decodeOp
  rw [htake]
  simp only [bind, Except.bind, misplaced_intoCanonical, Bool.false_eq_true, if_false, ne_eq,
    not_true_eq_false]
  rfl

/-- A migrated record decodes exactly as before. -/
theorem decodeOp_migrateRecord (hround : RoundTrip (P := P)) {bytes out : Bytes}
    (h : migrateRecord (P := P) bytes = .ok out) (op : Op P) :
    decodeOp out = .ok op ↔ decodeOp bytes = .ok op := by
  rcases migrateRecord_cases h with ⟨-, rfl⟩ | ⟨-, rfl, -⟩ | ⟨legacy, hlegacy, hencode⟩
    | ⟨legacy, hlegacy, rfl⟩
  · exact Iff.rfl
  · exact Iff.rfl
  · obtain ⟨hkind, body, hbody, rfl⟩ := encodeOp_intoCanonical hencode
    rw [decodeOp_schemaOne hround hkind hbody, decodeOp_of_legacy hlegacy.1 hlegacy.2.1, hkind]
    rfl
  · rw [decodeOp_schemaTwo hlegacy.1]

/-! ## Distinct records -/

omit [AddressHash] [Postcard P] in
lemma ParentSet.map_injective {Id Id' : Type} {f : Id → Id'} (hf : Function.Injective f) :
    Function.Injective (ParentSet.map f) := by
  intro x y h
  cases x <;> cases y <;> simp_all [ParentSet.map, hf.eq_iff]

omit [AddressHash] [Postcard P] in
lemma OpKind.map_injective {Id Id' : Type} {f : Id → Id'} (hf : Function.Injective f) :
    Function.Injective (OpKind.map (P := P) f) := by
  have hlist : ∀ xs ys : List Id, xs.map f = ys.map f → xs = ys := by
    intro xs ys h
    exact List.map_inj_right (fun _ _ => @hf _ _) |>.mp h
  have hoption := Option.map_injective hf
  intro x y h
  cases x <;> cases y <;> simp only [OpKind.map, reduceCtorEq, note.injEq, plain.injEq,
    gitLink.injEq, gitCommit.injEq, activity.injEq] at h ⊢
  · exact h
  · exact ⟨hlist _ _ h.1, h.2⟩
  · exact ⟨hf h.1, h.2⟩
  · exact ⟨hoption h.1, h.2⟩
  · exact h

omit [Postcard P] in
/-- As long as addresses hash to distinct identities, the upgrade loses nothing. -/
lemma intoCanonical_injective (hids : Function.Injective SourceId.id) :
    Function.Injective (LegacyOp.intoCanonical (P := P)) := by
  rintro ⟨id, parents, context, kind⟩ ⟨id', parents', context', kind'⟩ h
  simp only [LegacyOp.intoCanonical, Op.mk.injEq, Option.some.injEq] at h
  obtain ⟨-, rfl, hparents, rfl, hkind⟩ := h
  rw [ParentSet.map_injective hids hparents, OpKind.map_injective hids hkind]

/-- An unversioned record and the versioned record that it is rewritten to: schema 1 with its
canonical operation, or schema 2 with its own bytes if those are not the legacy encoder's. -/
def Respelled (bytes versioned : Bytes) : Prop :=
  ∃ legacy : LegacyOp P,
    (Canonical legacy bytes ∧ encodeOp legacy.intoCanonical = .ok versioned)
      ∨ Noncanonical legacy bytes ∧ versioned = recordMagic ++ 2 :: bytes

lemma Respelled.magic {bytes versioned : Bytes} (h : Respelled (P := P) bytes versioned) :
    recordMagic <+: versioned ∧ ¬ recordMagic <+: bytes := by
  obtain ⟨legacy, ⟨hlegacy, hencode⟩ | ⟨hlegacy, rfl⟩⟩ := h
  · obtain ⟨-, body, -, rfl⟩ := encodeOp_intoCanonical hencode
    exact ⟨List.prefix_append _ _, hlegacy.1⟩
  · exact ⟨List.prefix_append _ _, hlegacy.1⟩

/-- Every record that decodes stays as it is behind the magic, or is respelled. -/
lemma migrateRecord_decodable {bytes out : Bytes} (h : migrateRecord (P := P) bytes = .ok out)
    {op : Op P} (hop : decodeOp bytes = .ok op) :
    (recordMagic <+: bytes ∧ out = bytes) ∨ Respelled (P := P) bytes out := by
  rcases migrateRecord_cases h with hversioned | ⟨hmagic, -, hnone⟩ | ⟨legacy, hlegacy⟩
    | ⟨legacy, hlegacy⟩
  · exact .inl hversioned
  · -- an unversioned record that decodes fills the legacy envelope
    unfold decodeOp takeEnvelope at hop
    rw [stripMagic_of_not hmagic] at hop
    obtain ⟨⟨op', remaining⟩, htake, hop⟩ := bind_eq_ok.mp hop
    obtain ⟨hempty, -⟩ := guard_eq_ok.mp hop
    unfold takeCanonical at htake
    obtain ⟨⟨legacy, rest⟩, hlegacy, htake⟩ := bind_eq_ok.mp htake
    obtain ⟨-, htake⟩ := guard_eq_ok.mp htake
    cases htake
    rw [not_not] at hempty
    rw [hempty] at hlegacy
    exact absurd hlegacy (hnone legacy)
  · exact .inr ⟨legacy, .inl hlegacy⟩
  · exact .inr ⟨legacy, .inr hlegacy⟩

/-- Respelling keeps distinct records distinct. -/
lemma Respelled.injective (hids : Function.Injective SourceId.id) (hround : RoundTrip (P := P))
    {a b out : Bytes} (ha : Respelled (P := P) a out) (hb : Respelled (P := P) b out) : a = b := by
  obtain ⟨legacy, ⟨ha, henc⟩ | ⟨ha, hout⟩⟩ := ha <;> obtain ⟨legacy', ⟨hb, henc'⟩ | ⟨hb, hout'⟩⟩ := hb
  · obtain ⟨hkind, body, hbody, rfl⟩ := encodeOp_intoCanonical henc
    obtain ⟨hkind', body', hbody', hout⟩ := encodeOp_intoCanonical henc'
    have hdecode := decodeOp_schemaOne hround hkind hbody
    rw [hout, decodeOp_schemaOne hround hkind' hbody'] at hdecode
    have hlegacy := intoCanonical_injective hids (Except.ok.inj hdecode)
    have hsame := ha.2.2
    rw [← hlegacy, hb.2.2] at hsame
    exact (Except.ok.inj hsame).symm
  · obtain ⟨-, body, -, rfl⟩ := encodeOp_intoCanonical henc
    have hschema := List.append_cancel_left hout'
    cases hschema
  · obtain ⟨-, body, -, rfl⟩ := encodeOp_intoCanonical henc'
    have hschema := List.append_cancel_left hout
    cases hschema
  · rw [hout] at hout'
    have hbytes := List.append_cancel_left hout'
    exact List.tail_eq_of_cons_eq hbytes

end EditChain.Migration

/-! ## The recorded message -/

namespace EditChain.Migration

/-- Only the body of a message matters. -/
@[reducible] def messagePayloads : Payloads where
  Plain := Bytes
  Note := Unit
  Link := Unit
  Commit := Unit
  Context := Unit
  Activity := Unit
  validate _ := false
  activityId _ := 0
  activityParents _ := []
  activityContext _ := ()

/-- The address of the message. -/
def messageSource : SourceId := ⟨1, 0, 42⟩

/-- The identity of the message is the recorded one, any other address gets one of its own. -/
@[reducible] def messageAddresses : AddressHash where
  id source :=
    if source = messageSource then messageId
    else BitVec.ofNat 256 ((source.node.toNat * 2 ^ 32 + source.boot.toNat) * 2 ^ 64 + source.seq.toNat)

/-- The message in the legacy envelope. -/
def legacyMessage : LegacyOp messagePayloads := ⟨messageSource, .none, (), .plain messageBody⟩

/-- The message in the envelope of schema 1. -/
def messageOp : Op messagePayloads := ⟨messageId, some messageSource, .none, (), .plain messageBody⟩

/-- The serialization library on the two envelopes of the message. -/
@[reducible] def messagePostcard : Postcard messagePayloads where
  takeOp bytes :=
    if bytes = messageV3.drop 15 then .ok (messageOp, [])
    else .error ⟨"Hit the end of buffer, expected more data"⟩
  takeLegacy bytes :=
    if bytes = messageV1 then .ok (legacyMessage, [])
    else .error ⟨"Hit the end of buffer, expected more data"⟩
  takeActivity _ := .error ⟨"Hit the end of buffer, expected more data"⟩
  opBytes
    | ⟨id, some source, .none, (), .plain body⟩ =>
      if id = messageId ∧ source = messageSource ∧ body = messageBody then .ok (messageV3.drop 15)
      else .error serdeSerCustom
    | _ => .error serdeSerCustom
  legacyBytes
    | ⟨source, .none, (), .plain body⟩ =>
      if source = messageSource ∧ body = messageBody then .ok messageV1 else .error serdeSerCustom
    | _ => .error serdeSerCustom
  activityBytes _ := .error serdeSerCustom

lemma messagePostcard_roundTrip : @RoundTrip messagePayloads messagePostcard := by
  intro op bytes h
  unfold Postcard.opBytes at h
  simp only at h
  split at h
  · split at h
    · next hmessage =>
      cases h
      obtain ⟨rfl, rfl, rfl⟩ := hmessage
      rfl
    · cases h
  · cases h

lemma messageAddresses_injective : Function.Injective (@SourceId.id messageAddresses) := by
  have hbound : ∀ source : SourceId,
      (source.node.toNat * 2 ^ 32 + source.boot.toNat) * 2 ^ 64 + source.seq.toNat < 2 ^ 160 := by
    intro source
    have hnode := source.node.toNat_lt
    have hboot := source.boot.toNat_lt
    have hseq := source.seq.toNat_lt
    omega
  have hsmall : ∀ n : ℕ, n < 2 ^ 160 → (BitVec.ofNat 256 n).toNat = n := by
    intro n hn
    rw [BitVec.toNat_ofNat]
    exact Nat.mod_eq_of_lt (Nat.lt_of_lt_of_le hn (Nat.pow_le_pow_right (by omega) (by omega)))
  have hmessage : ∀ n : ℕ, n < 2 ^ 160 → messageId ≠ BitVec.ofNat 256 n := by
    intro n hn heq
    have hnat : messageId.toNat = n := by rw [heq, hsmall n hn]
    have hlarge : 2 ^ 160 ≤ messageId.toNat := by decide
    omega
  intro a b h
  unfold SourceId.id AddressHash.id at h
  simp only at h
  split at h <;> split at h
  · next ha hb => rw [ha, hb]
  · exact absurd h (hmessage _ (hbound b))
  · exact absurd h.symm (hmessage _ (hbound a))
  · have hnat := congrArg BitVec.toNat h
    rw [hsmall _ (hbound a), hsmall _ (hbound b)] at hnat
    have hseq := a.seq.toNat_lt
    have hseq' := b.seq.toNat_lt
    have hboot := a.boot.toNat_lt
    have hboot' := b.boot.toNat_lt
    obtain ⟨node, boot, seq⟩ := a
    obtain ⟨node', boot', seq'⟩ := b
    simp only at hnat hseq hseq' hboot hboot'
    have hnodes : node.toNat = node'.toNat := by omega
    have hboots : boot.toNat = boot'.toNat := by omega
    have hseqs : seq.toNat = seq'.toNat := by omega
    rw [UInt64.toNat_inj.mp hnodes, UInt32.toNat_inj.mp hboots, UInt64.toNat_inj.mp hseqs]

end EditChain.Migration
