import EditChain.Migration.ReadTheorems
import EditChain.Migration.RecordTheorems

/-!
# Migration and the history of a chain

Converting every record of a chain keeps what the chain says, exactly as long as no record is
rewritten to the bytes of another one.
-/

namespace EditChain.Migration

open Core Fallible Store

variable {P : Payloads} [AddressHash] [Postcard P]

/-- Two chains say the same: the same accepted identities with the same operations, the same
conflicted identities with as many variants, and the same counts. -/
structure SameHistory (chain chain' : CanonicalChain (Op P)) : Prop where
  accepted : ∀ id, chain'.get id = chain.get id
  conflicted : chain'.evidence.conflictedIds = chain.evidence.conflictedIds
  variants : ∀ id ∈ chain.evidence.conflictedIds,
    (chain'.evidence.variantsOf id).size = (chain.evidence.variantsOf id).size
  records : chain'.stats.records = chain.stats.records
  duplicates : chain'.stats.duplicates = chain.stats.duplicates
  undecodable : chain'.stats.undecodable = chain.stats.undecodable

/-- No record that decodes is rewritten to the bytes of another record of the chain. -/
def Unrepeated (l : List Bytes) : Prop :=
  ∀ a ∈ l, ∀ b ∈ l, Respelled (P := P) a b → ∀ op : Op P, decodeOp a ≠ .ok op

/-- The migrated bytes of a record, where migration accepts it. -/
def migrated (bytes : Bytes) : Bytes :=
  match (migrateRecord bytes : Except PostcardError Bytes) with
  | .ok out => out
  | .error _ => bytes

lemma migrated_of_ok {bytes out : Bytes} (h : migrateRecord (P := P) bytes = .ok out) :
    migrated (P := P) bytes = out := by
  unfold migrated
  rw [h]

lemma Respelled.migrateRecord {bytes versioned : Bytes}
    (h : Respelled (P := P) bytes versioned) :
    Migration.migrateRecord (P := P) bytes = .ok versioned := by
  unfold Migration.migrateRecord
  obtain ⟨legacy, ⟨hlegacy, hencode⟩ | ⟨hlegacy, rfl⟩⟩ := h
  · rw [if_neg hlegacy.1, hlegacy.2.1]
    simp only [ne_eq, not_true_eq_false, if_false, hlegacy.2.2, bind, Except.bind, if_true]
    exact hencode
  · obtain ⟨hmagic, htake, canonical, hcanonical, hne⟩ := hlegacy
    rw [if_neg hmagic, htake]
    simp only [ne_eq, not_true_eq_false, if_false, hcanonical, bind, Except.bind, if_neg hne]
    rfl

section Conversion

variable {l : List Bytes} (haccepted : ∀ bytes ∈ l, ∃ out, migrateRecord (P := P) bytes = .ok out)
  (hround : RoundTrip (P := P))

include haccepted hround

/-- Migrated records claim the same identities. -/
lemma claims_migrated :
    claims (l.map (migrated (P := P)))
      = (claims l).map fun r => (r.1, migrated (P := P) r.2) := by
  induction l with
  | nil => rfl
  | cons bytes l ih =>
    obtain ⟨out, hout⟩ := haccepted bytes List.mem_cons_self
    have hrest := ih fun b hb => haccepted b (List.mem_cons_of_mem _ hb)
    have hsplit : ∀ (b : Bytes) (m : List Bytes),
        claims (b :: m) = claims [b] ++ claims m :=
      fun b m => claims_append [b] m
    rw [List.map_cons, hsplit, hsplit bytes l, List.map_append, hrest]
    congr 1
    rw [migrated_of_ok hout]
    cases hop : (decodeOp bytes : Except PostcardError (Op P)) with
    | ok op =>
      have hop' : (Schema.decodeOp out : Except PostcardError (Op P)) = .ok op :=
        (decodeOp_migrateRecord hround hout op).mpr hop
      rw [claims_ok hop', claims_ok hop]
      simp [migrated_of_ok hout]
    | error e =>
      have hnone : ∃ e', (Schema.decodeOp out : Except PostcardError (Op P)) = .error e' := by
        cases hout' : (decodeOp out : Except PostcardError (Op P)) with
        | error e' => exact ⟨e', hout'⟩
        | ok op =>
          rw [(decodeOp_migrateRecord hround hout op).mp hout'] at hop
          cases hop
      obtain ⟨e', he'⟩ := hnone
      rw [claims_error he', claims_error hop]
      rfl

/-- Distinct records that decode stay distinct, unless one is rewritten to another. -/
lemma injOn_migrated (hids : Function.Injective SourceId.id) (hfree : Unrepeated (P := P) l) :
    ∀ r ∈ claims l, ∀ r' ∈ claims l,
      migrated (P := P) r.2 = migrated (P := P) r'.2 → r.2 = r'.2 := by
  rintro ⟨id, a⟩ ha ⟨id', b⟩ hb hsame
  obtain ⟨hal, op, hop, -⟩ := mem_claims.mp ha
  obtain ⟨hbl, op', hop', -⟩ := mem_claims.mp hb
  obtain ⟨out, hout⟩ := haccepted a hal
  obtain ⟨out', hout'⟩ := haccepted b hbl
  simp only [migrated_of_ok hout, migrated_of_ok hout'] at hsame
  subst hsame
  rcases migrateRecord_decodable hout hop with ⟨-, rfl⟩ | hrespelled
  · rcases migrateRecord_decodable hout' hop' with ⟨-, hsame⟩ | hrespelled'
    · exact hsame
    · exact absurd hop' (hfree b hbl out hal hrespelled' op')
  · rcases migrateRecord_decodable hout' hop' with ⟨-, rfl⟩ | hrespelled'
    · exact absurd hop (hfree a hal out hbl hrespelled op)
    · exact hrespelled.injective hids hround hrespelled'

variable {chain chain' : CanonicalChain (Op P)} (hsaid : Says l chain)
  (hsaid' : Says (l.map (migrated (P := P))) chain')

include hsaid hsaid'

/-- The variants of an identity are the migrated ones. -/
lemma variants_migrated (id : OpId) :
    KeyedEvidence.variants chain'.evidence.pairs id
      = (KeyedEvidence.variants chain.evidence.pairs id).image (migrated (P := P)) := by
  ext b
  rw [KeyedEvidence.mem_variants, hsaid'.evidence, claims_migrated haccepted hround,
    Finset.mem_image]
  simp only [List.mem_toFinset, List.mem_map, Prod.mk.injEq, Prod.exists, KeyedEvidence.mem_variants,
    hsaid.evidence]
  constructor
  · rintro ⟨id', a, ha, rfl, rfl⟩
    exact ⟨a, ha, rfl⟩
  · rintro ⟨a, ha, rfl⟩
    exact ⟨id, a, ha, rfl, rfl⟩

omit haccepted hround hsaid' in
lemma mem_claims_of_variants {id : OpId} {b : Bytes}
    (h : b ∈ KeyedEvidence.variants chain.evidence.pairs id) : (id, b) ∈ claims l := by
  rw [KeyedEvidence.mem_variants, hsaid.evidence, List.mem_toFinset] at h
  exact h

/-- As long as no record is rewritten to another, the history stays. -/
lemma sameHistory_of_unrepeated (hids : Function.Injective SourceId.id)
    (hfree : Unrepeated (P := P) l) : SameHistory chain chain' := by
  have hinj := injOn_migrated haccepted hround hids hfree
  have hvariants := variants_migrated haccepted hround hsaid hsaid'
  have hcard : ∀ id, (KeyedEvidence.variants chain'.evidence.pairs id).card
      = (KeyedEvidence.variants chain.evidence.pairs id).card := by
    intro id
    rw [hvariants id]
    apply Finset.card_image_of_injOn
    intro a ha b hb hsame
    exact hinj (id, a) (mem_claims_of_variants hsaid ha) (id, b) (mem_claims_of_variants hsaid hb) hsame
  have hlength : (claims (l.map (migrated (P := P)))).length
      = (claims l).length := by
    rw [claims_migrated haccepted hround, List.length_map]
  have hpairs : chain'.evidence.pairs.card = chain.evidence.pairs.card := by
    have himage : chain'.evidence.pairs
        = chain.evidence.pairs.image fun r => (r.1, migrated (P := P) r.2) := by
      rw [hsaid'.evidence, hsaid.evidence, claims_migrated haccepted hround]
      ext r
      simp
    rw [himage]
    apply Finset.card_image_of_injOn
    intro r hr r' hr' hsame
    rw [Finset.mem_coe, hsaid.evidence, List.mem_toFinset] at hr hr'
    simp only [Prod.mk.injEq] at hsame
    exact Prod.ext hsame.1 (hinj r hr r' hr' hsame.2)
  refine ⟨?_, ?_, ?_, ?_, ?_, ?_⟩
  · intro id
    unfold CanonicalChain.get
    have haccept : chain'.accepted[id]?.isSome ↔ chain.accepted[id]?.isSome := by
      rw [hsaid'.accepted, hsaid.accepted, KeyedEvidence.mem_accepted, KeyedEvidence.mem_accepted,
        hcard]
    cases hold : chain.accepted[id]? with
    | none =>
      rw [hold] at haccept
      have hnone : chain'.accepted[id]? = none := by
        rw [← Option.not_isSome_iff_eq_none, haccept]
        simp
      rw [hnone]
    | some entry =>
      rw [hold] at haccept
      obtain ⟨entry', hnew⟩ := Option.isSome_iff_exists.mp (haccept.mpr rfl)
      obtain ⟨op, location⟩ := entry
      obtain ⟨op', location'⟩ := entry'
      rw [hnew]
      -- the only variant of the identity decodes to the operation on both sides
      obtain ⟨a, ha, hop⟩ := hsaid.ops id op location hold
      obtain ⟨b, hb, hop'⟩ := hsaid'.ops id op' location' hnew
      have hone : (KeyedEvidence.variants chain.evidence.pairs id).card = 1 := by
        rw [← KeyedEvidence.mem_accepted, ← hsaid.accepted, hold]
        rfl
      obtain ⟨c, hc⟩ := Finset.card_eq_one.mp hone
      have hac : a = c := by
        rw [← Finset.mem_singleton, ← hc]
        exact KeyedEvidence.mem_variants.mpr ha
      have hbc : b = migrated (P := P) c := by
        have hmem := KeyedEvidence.mem_variants.mpr hb
        rw [hvariants id, hc, Finset.image_singleton, Finset.mem_singleton] at hmem
        exact hmem
      have hal : a ∈ l := (mem_claims.mp (mem_claims_of_variants hsaid
        (KeyedEvidence.mem_variants.mpr ha))).1
      obtain ⟨out, hout⟩ := haccepted a hal
      rw [hbc, ← hac, migrated_of_ok hout] at hop'
      have hsame : decodeOp a = .ok op' := (decodeOp_migrateRecord hround hout op').mp hop'
      have heq : (Schema.decodeOp a : Except PostcardError (Op P)) = .ok op' := hsame
      rw [hop] at heq
      cases heq
      rfl
  · unfold OpSet.conflictedIds
    ext id
    rw [KeyedEvidence.mem_conflicted, KeyedEvidence.mem_conflicted, hcard]
  · intro id _
    rw [← OpSet.card_variants_pairs, ← OpSet.card_variants_pairs, hcard]
  · show chain'.counts.records = chain.counts.records
    rw [hsaid'.records, hsaid.records, hlength]
  · show chain'.counts.duplicates = chain.counts.duplicates
    have hnew := hsaid'.duplicates
    have hold := hsaid.duplicates
    omega
  · show chain'.counts.undecodable = chain.counts.undecodable
    have hnew := hsaid'.undecodable
    have hold := hsaid.undecodable
    rw [List.length_map] at hnew
    omega

/-- A record that is rewritten to another takes a variant away. -/
lemma unrepeated_of_sameHistory (h : SameHistory chain chain') : Unrepeated (P := P) l := by
  intro a ha b hb hrespelled op hop
  have hout := hrespelled.migrateRecord
  have hne : a ≠ b := by
    rintro rfl
    exact hrespelled.magic.2 hrespelled.magic.1
  have hopb : decodeOp b = .ok op := (decodeOp_migrateRecord hround hout op).mpr hop
  have hmem : ∀ bytes ∈ l, decodeOp bytes = .ok op → bytes
      ∈ KeyedEvidence.variants chain.evidence.pairs op.id := by
    intro bytes hbytes hdecode
    rw [KeyedEvidence.mem_variants, hsaid.evidence, List.mem_toFinset, mem_claims]
    exact ⟨hbytes, op, hdecode, rfl⟩
  have hconflicted : op.id ∈ chain.evidence.conflictedIds :=
    KeyedEvidence.mem_conflicted_of_ne (KeyedEvidence.mem_variants.mp (hmem a ha hop))
      (KeyedEvidence.mem_variants.mp (hmem b hb hopb)) hne
  have hsize := h.variants op.id hconflicted
  rw [← OpSet.card_variants_pairs, ← OpSet.card_variants_pairs,
    variants_migrated haccepted hround hsaid hsaid' op.id] at hsize
  have hinj := Finset.card_image_iff.mp hsize
  have hversioned : migrated (P := P) b = b := by
    apply migrated_of_ok
    unfold Migration.migrateRecord
    rw [if_pos hrespelled.magic.1]
  apply hne
  apply hinj (hmem a ha hop) (hmem b hb hopb)
  rw [hversioned, migrated_of_ok hout]

end Conversion

end EditChain.Migration
