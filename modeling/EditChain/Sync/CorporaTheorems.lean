import EditChain.Core.AdmissionTheorems
import EditChain.Lib.Ledger
import EditChain.Store.Indexed
import EditChain.Sync.Evidence

/-!
# Three corpora, one admission rule

`CanonicalChain` compares byte sets, `IndexedChain` compares lengths and rereads the bytes of
earlier variants, the replication `Corpus` compares digests by a key range. Each is shown to be a
view of the ledger of first occurrences of the same arrivals, so that all three answer alike.
-/

namespace EditChain.Sync

open Core Fallible Store
open Std (ExtTreeMap)

variable {Op : Type} [Schema Op]

/-- A complete record as a frontier hands it to a corpus, with the directory at that time. -/
structure Arrival (Op : Type) where
  directory : Directory
  op : Op
  encoded : Bytes
  location : OpRecordLocation

namespace Arrival

/-- The identity of the operation. -/
def id (a : Arrival Op) : OpId := Schema.id a.op

end Arrival

/-- Feed records in order to a corpus, collecting the answers. -/
def feed {C : Type} [TailCorpus Op C] : List (Arrival Op) → C → List (Except IoError Admission) × C
  | [], corpus => ([], corpus)
  | a :: rest, corpus =>
    let (answer, corpus) :=
      (TailCorpus.admitRecord a.directory a.op a.encoded a.location).exec corpus
    let (answers, corpus) := feed rest corpus
    (answer :: answers, corpus)

/-! ## The ledger of arrivals -/

/-- The first occurrences of the distinct variants. -/
abbrev firsts (arrivals : List (Arrival Op)) : List (Arrival Op) :=
  Ledger.ledger Arrival.id Arrival.encoded arrivals

/-- The distinct variants of one identity, in order of first occurrence. -/
abbrev variantsIn (l : List (Arrival Op)) (id : OpId) : List (Arrival Op) :=
  Ledger.variants Arrival.id l id

/-- What the ledger says about a record. -/
def verdict (l : List (Arrival Op)) (a : Arrival Op) : Admission :=
  if Ledger.Known Arrival.id Arrival.encoded l a then .duplicate
  else if variantsIn l a.id = [] then .accepted
  else .conflict

/-- What the ledger says about a sequence of records. -/
def verdicts : List (Arrival Op) → List (Arrival Op) → List Admission
  | _, [] => []
  | l, a :: rest => verdict l a :: verdicts (Ledger.retain Arrival.id Arrival.encoded l a) rest

omit [Schema Op] in
lemma feed_append {C : Type} [TailCorpus Op C] (xs ys : List (Arrival Op)) (corpus : C) :
    feed (xs ++ ys) corpus
      = ((feed xs corpus).1 ++ (feed ys (feed xs corpus).2).1, (feed ys (feed xs corpus).2).2) := by
  induction xs generalizing corpus with
  | nil => rfl
  | cons a xs ih => simp [feed, ih]

/-- The answers of the ledger to the arrivals. -/
def answers (arrivals : List (Arrival Op)) : List Admission := verdicts [] arrivals

lemma verdicts_append (l xs ys : List (Arrival Op)) :
    verdicts l (xs ++ ys)
      = verdicts l xs ++ verdicts (xs.foldl (Ledger.retain Arrival.id Arrival.encoded) l) ys := by
  induction xs generalizing l with
  | nil => rfl
  | cons a xs ih => simp [verdicts, ih]

lemma answers_append_singleton (arrivals : List (Arrival Op)) (a : Arrival Op) :
    answers (arrivals ++ [a]) = answers arrivals ++ [verdict (firsts arrivals) a] := by
  unfold answers
  rw [verdicts_append]
  rfl

/-- The pairs of identity and bytes in a ledger. -/
def evidenceOf (l : List (Arrival Op)) : Finset (OpId × Bytes) :=
  (l.map fun a => (a.id, a.encoded)).toFinset

lemma mem_evidenceOf {l : List (Arrival Op)} {id : OpId} {bytes : Bytes} :
    (id, bytes) ∈ evidenceOf l ↔ ∃ a ∈ l, a.id = id ∧ a.encoded = bytes := by
  simp [evidenceOf]

lemma evidenceOf_nil : evidenceOf ([] : List (Arrival Op)) = ∅ := rfl

lemma known_iff {l : List (Arrival Op)} {a : Arrival Op} :
    Ledger.Known Arrival.id Arrival.encoded l a ↔ (a.id, a.encoded) ∈ evidenceOf l :=
  mem_evidenceOf.symm

lemma evidenceOf_append (l : List (Arrival Op)) (a : Arrival Op) :
    evidenceOf (l ++ [a]) = insert (a.id, a.encoded) (evidenceOf l) := by
  ext p
  simp [evidenceOf]

lemma variantsIn_eq_nil {l : List (Arrival Op)} {id : OpId} :
    variantsIn l id = [] ↔ id ∉ KeyedEvidence.keys (evidenceOf l) := by
  simp [Ledger.variants, mem_evidenceOf]

/-- The number of entries of a map is the number of its keys. -/
lemma size_eq_card {β : Type} (m : ExtTreeMap OpId β) {s : Finset OpId}
    (h : ∀ id, m[id]?.isSome ↔ id ∈ s) : m.size = s.card := by
  have hset : m.keys.toFinset = s := by
    ext id
    rw [List.mem_toFinset, ExtTreeMap.mem_keys, ← h, ExtTreeMap.isSome_getElem?_iff_mem]
  rw [← hset, List.toFinset_card_of_nodup ExtTreeMap.nodup_keys, ExtTreeMap.length_keys]

/-! ## The canonical chain -/

/-- The counts of a corpus after `n` records whose ledger is `l`. -/
structure Counted (n : ℕ) (l : List (Arrival Op)) (counts : ChainReadStats) : Prop where
  records : counts.records = n
  duplicates : counts.duplicates + (evidenceOf l).card = n
  quarantined :
    counts.quarantined + (KeyedEvidence.accepted (evidenceOf l)).card = (evidenceOf l).card
  undecodable : counts.undecodable = 0
  incompleteTails : counts.incompleteTails = 0

/-- The canonical chain seen from the ledger. -/
structure CanonicalView (n : ℕ) (l : List (Arrival Op)) (chain : CanonicalChain Op) : Prop where
  evidence : chain.evidence.pairs = evidenceOf l
  accepted : ∀ id, chain.accepted[id]?
    = match variantsIn l id with
      | [a] => some (a.op, some a.location)
      | _ => none
  counted : Counted n l chain.counts

/-- The variants of an identity have different bytes. -/
lemma nodup_encoded_variantsIn {l : List (Arrival Op)}
    (hnodup : (l.map fun a => (a.id, a.encoded)).Nodup) (id : OpId) :
    ((variantsIn l id).map Arrival.encoded).Nodup := by
  refine List.Nodup.of_map (fun b => (id, b)) ?_
  have hsame : ((variantsIn l id).map Arrival.encoded).map (fun b => (id, b))
      = (variantsIn l id).map fun a => (a.id, a.encoded) := by
    rw [List.map_map]
    refine List.map_congr_left ?_
    intro a ha
    rw [Function.comp_apply, (Ledger.mem_variants.mp ha).2]
  rw [hsame]
  exact (List.filter_sublist.map _).nodup hnodup

lemma card_variants_evidenceOf {l : List (Arrival Op)}
    (hnodup : (l.map fun a => (a.id, a.encoded)).Nodup) (id : OpId) :
    (KeyedEvidence.variants (evidenceOf l) id).card = (variantsIn l id).length := by
  have hvariants : KeyedEvidence.variants (evidenceOf l) id
      = ((variantsIn l id).map Arrival.encoded).toFinset := by
    ext b
    rw [KeyedEvidence.mem_variants, mem_evidenceOf, List.mem_toFinset, List.mem_map]
    simp only [Ledger.mem_variants, and_assoc]
  rw [hvariants, List.toFinset_card_of_nodup (nodup_encoded_variantsIn hnodup id), List.length_map]

/-- An identity is accepted exactly while the ledger has one variant of it. -/
lemma mem_accepted_evidenceOf {l : List (Arrival Op)}
    (hnodup : (l.map fun a => (a.id, a.encoded)).Nodup) {id : OpId} :
    id ∈ KeyedEvidence.accepted (evidenceOf l) ↔ (variantsIn l id).length = 1 := by
  rw [KeyedEvidence.mem_accepted, card_variants_evidenceOf hnodup]

namespace Counted

variable {n : ℕ} {l : List (Arrival Op)} {counts : ChainReadStats}

lemma duplicate (h : Counted n l counts) :
    Counted (n + 1) l
      { counts with records := counts.records + 1, duplicates := counts.duplicates + 1 } where
  records := by simp [h.records]
  duplicates := by
    have hduplicates := h.duplicates
    simp only
    omega
  quarantined := h.quarantined
  undecodable := h.undecodable
  incompleteTails := h.incompleteTails

/-- A new identity adds a variant and an accepted identity. -/
lemma accepted (h : Counted n l counts) {a : Arrival Op} (hnew : variantsIn l a.id = [])
    (accepted : ℕ) :
    Counted (n + 1) (l ++ [a])
      { counts with records := counts.records + 1, accepted := accepted } := by
  have hkey := variantsIn_eq_nil.mp hnew
  have hpair : (a.id, a.encoded) ∉ evidenceOf l := fun hmem =>
    hkey (KeyedEvidence.mem_keys.mpr ⟨_, hmem⟩)
  have hcard : (evidenceOf (l ++ [a])).card = (evidenceOf l).card + 1 := by
    rw [evidenceOf_append, Finset.card_insert_of_notMem hpair]
  have haccepted : (KeyedEvidence.accepted (evidenceOf (l ++ [a]))).card
      = (KeyedEvidence.accepted (evidenceOf l)).card + 1 := by
    rw [evidenceOf_append, KeyedEvidence.accepted_insert_of_notMem _ hkey,
      Finset.card_insert_of_notMem]
    intro hmem
    exact hkey (Finset.mem_filter.mp hmem).1
  have hduplicates := h.duplicates
  have hquarantined := h.quarantined
  exact ⟨by simp [h.records], by simp only; omega, by simp only; omega, h.undecodable,
    h.incompleteTails⟩

/-- A conflicting variant quarantines itself, and the first one with it if that was accepted. -/
lemma conflict (h : Counted n l counts) {a : Arrival Op} (hold : variantsIn l a.id ≠ [])
    (hnew : (a.id, a.encoded) ∉ evidenceOf l) (accepted : ℕ) :
    Counted (n + 1) (l ++ [a])
      { counts with
        records := counts.records + 1
        accepted := accepted
        quarantined := counts.quarantined
          + if a.id ∈ KeyedEvidence.accepted (evidenceOf l) then 2 else 1 } := by
  have hkey : a.id ∈ KeyedEvidence.keys (evidenceOf l) := by
    by_contra hnot
    exact hold (variantsIn_eq_nil.mpr hnot)
  have hcard : (evidenceOf (l ++ [a])).card = (evidenceOf l).card + 1 := by
    rw [evidenceOf_append, Finset.card_insert_of_notMem hnew]
  have haccepted : (KeyedEvidence.accepted (evidenceOf (l ++ [a]))).card
      = (KeyedEvidence.accepted (evidenceOf l)).card
        - if a.id ∈ KeyedEvidence.accepted (evidenceOf l) then 1 else 0 := by
    rw [evidenceOf_append, KeyedEvidence.accepted_insert_of_mem hkey hnew]
    by_cases hmem : a.id ∈ KeyedEvidence.accepted (evidenceOf l)
    · rw [if_pos hmem, Finset.card_erase_of_mem hmem]
    · rw [if_neg hmem, Finset.erase_eq_of_notMem hmem, Nat.sub_zero]
  have hduplicates := h.duplicates
  have hquarantined := h.quarantined
  refine ⟨by simp [h.records], by simp only; omega, ?_, h.undecodable, h.incompleteTails⟩
  simp only
  by_cases hmem : a.id ∈ KeyedEvidence.accepted (evidenceOf l)
  · have hpos := Finset.card_pos.mpr ⟨_, hmem⟩
    rw [if_pos hmem] at haccepted ⊢
    omega
  · rw [if_neg hmem] at haccepted ⊢
    omega

end Counted

/-- What the evidence set announces is the verdict of the ledger. -/
lemma classify_eq_verdict {s : OpSet} {l : List (Arrival Op)} (h : s.pairs = evidenceOf l)
    (a : Arrival Op) : s.classify a.id a.encoded = verdict l a := by
  unfold verdict
  by_cases hknown : Ledger.Known Arrival.id Arrival.encoded l a
  · rw [if_pos hknown]
    exact OpSet.classify_eq_duplicate_iff.mpr (h ▸ known_iff.mp hknown)
  · have hnot : s.classify a.id a.encoded ≠ .duplicate := fun hdup =>
      hknown (known_iff.mpr (h ▸ OpSet.classify_eq_duplicate_iff.mp hdup))
    rw [if_neg hknown]
    by_cases hnil : variantsIn l a.id = []
    · rw [if_pos hnil]
      exact OpSet.classify_eq_accepted_iff.mpr (h ▸ variantsIn_eq_nil.mp hnil)
    · have hnacc : s.classify a.id a.encoded ≠ .accepted := fun hacc =>
        hnil (variantsIn_eq_nil.mpr (h ▸ OpSet.classify_eq_accepted_iff.mp hacc))
      rw [if_neg hnil]
      cases hclass : s.classify a.id a.encoded with
      | accepted => exact absurd hclass hnacc
      | duplicate => exact absurd hclass hnot
      | conflict => rfl

/-- The three verdicts, with what the ledger becomes. -/
lemma verdict_cases (l : List (Arrival Op)) (a : Arrival Op) :
    (verdict l a = .duplicate ∧ (a.id, a.encoded) ∈ evidenceOf l
        ∧ Ledger.retain Arrival.id Arrival.encoded l a = l)
      ∨ (verdict l a = .accepted ∧ variantsIn l a.id = []
        ∧ Ledger.retain Arrival.id Arrival.encoded l a = l ++ [a])
      ∨ (verdict l a = .conflict ∧ variantsIn l a.id ≠ [] ∧ (a.id, a.encoded) ∉ evidenceOf l
        ∧ Ledger.retain Arrival.id Arrival.encoded l a = l ++ [a]) := by
  unfold verdict
  by_cases hknown : Ledger.Known Arrival.id Arrival.encoded l a
  · exact .inl ⟨if_pos hknown, known_iff.mp hknown, Ledger.retain_of_known hknown⟩
  · rw [if_neg hknown, Ledger.retain_of_not_known hknown]
    by_cases hnil : variantsIn l a.id = []
    · exact .inr (.inl ⟨if_pos hnil, hnil, rfl⟩)
    · exact .inr (.inr ⟨if_neg hnil, hnil, fun hmem => hknown (known_iff.mpr hmem), rfl⟩)

/-- The variants of an identity after one more record of the ledger. -/
lemma variantsIn_append (l : List (Arrival Op)) (a : Arrival Op) (id : OpId) :
    variantsIn (l ++ [a]) id = if a.id = id then variantsIn l id ++ [a] else variantsIn l id := by
  by_cases hid : a.id = id
  · rw [if_pos hid, ← hid]
    exact Ledger.variants_append_self l a
  · rw [if_neg hid]
    exact Ledger.variants_append_of_ne l hid

/-- One step of the canonical chain. -/
lemma CanonicalView.step {n : ℕ} {l : List (Arrival Op)} {chain : CanonicalChain Op}
    (h : CanonicalView n l chain) (a : Arrival Op) :
    (chain.admitOp a.op a.encoded (some a.location)).1 = verdict l a
      ∧ CanonicalView (n + 1) (Ledger.retain Arrival.id Arrival.encoded l a)
          (chain.admitOp a.op a.encoded (some a.location)).2 := by
  have hclass : chain.evidence.classify (Schema.id a.op) a.encoded = verdict l a :=
    classify_eq_verdict h.evidence a
  have hcontains : chain.evidence.contains (Schema.id a.op) = true
      ↔ a.id ∈ KeyedEvidence.accepted (evidenceOf l) := by
    rw [OpSet.contains_iff, OpSet.acceptedIds, h.evidence]
    rfl
  unfold CanonicalChain.admitOp
  rw [OpSet.insert_eq, hclass]
  rcases verdict_cases l a with ⟨hv, hmem, hretain⟩ | ⟨hv, hnil, hretain⟩ | ⟨hv, hold, hnew, hretain⟩
  · rw [hv, hretain]
    refine ⟨rfl, ?_, h.accepted, h.counted.duplicate⟩
    simp only [OpSet.pairs_retain, h.evidence]
    exact Finset.insert_eq_of_mem hmem
  · rw [hv, hretain]
    refine ⟨rfl, ?_, ?_, h.counted.accepted hnil _⟩
    · simp only [OpSet.pairs_retain, h.evidence, evidenceOf_append]
      rfl
    · intro id
      rw [variantsIn_append]
      by_cases hid : a.id = id
      · have hid' : Schema.id a.op = id := hid
        rw [if_pos hid, ← hid, hnil]
        simp [Arrival.id]
      · have hid' : ¬ Schema.id a.op = id := hid
        rw [if_neg hid, ← h.accepted id]
        simp [ExtTreeMap.getElem?_insert, hid']
  · rw [hv, hretain]
    refine ⟨rfl, ?_, ?_, ?_⟩
    · simp only [OpSet.pairs_retain, h.evidence, evidenceOf_append]
      rfl
    · intro id
      rw [variantsIn_append]
      by_cases hid : a.id = id
      · obtain ⟨b, rest, hvariants⟩ := List.exists_cons_of_ne_nil hold
        rw [if_pos hid, ← hid, hvariants]
        cases rest <;> simp [Arrival.id]
      · have hid' : ¬ Schema.id a.op = id := hid
        rw [if_neg hid, ← h.accepted id]
        simp [ExtTreeMap.getElem?_erase, hid']
    · have hcounted := h.counted.conflict hold hnew chain.counts.accepted
      simp only [← hcontains] at hcounted
      exact hcounted

/-! ## The index over durable records -/

section Indexed

variable [Checksum]

/-- The index seen from the ledger. -/
structure IndexedView (n : ℕ) (l : List (Arrival Op)) (chain : IndexedChain Op) : Prop where
  entries : ∀ id, chain.entries[id]?
    = match variantsIn l id with
      | [] => none
      | a :: rest => some ⟨a.location, if rest = [] then some a.op else none⟩
  conflicts : ∀ id, chain.conflicts[id]?.getD []
    = (variantsIn l id).tail.map Arrival.location
  counted : Counted n l chain.stats
  accepted : chain.stats.accepted = (KeyedEvidence.accepted (evidenceOf l)).card

omit [Schema Op] in
/-- What is read back has the recorded length. -/
lemma length_of_readEncodedAt {d : Directory} {location : OpRecordLocation} {bytes : Bytes}
    (h : readEncodedAt d location = .ok bytes) : location.dataLen = bytes.length := by
  unfold readEncodedAt at h
  split at h
  · cases h
  · split at h
    · cases h
    · simp only at h
      split at h
      · cases h
      · next hlen =>
        split at h
        · cases h
        · cases h
          simpa using Eq.symm (not_not.mp hlen)

omit [Schema Op] in
/-- Rereading the earlier variants finds the bytes exactly if one of them has them. -/
lemma holds_locations {d : Directory} (encoded : Bytes) {vs : List (Arrival Op)}
    (hread : ∀ b ∈ vs, readEncodedAt d b.location = .ok b.encoded) :
    IndexedChain.holds d encoded (vs.map Arrival.location)
      = .ok (decide (∃ b ∈ vs, b.encoded = encoded)) := by
  induction vs with
  | nil => simp [IndexedChain.holds]
  | cons b vs ih =>
    have hb := hread b (by simp)
    have hrest := ih fun c hc => hread c (by simp [hc])
    rw [List.map_cons, IndexedChain.holds, length_of_readEncodedAt hb, hb, hrest]
    by_cases hsame : b.encoded = encoded
    · simp [hsame, bind, Except.bind, pure, Except.pure]
    · by_cases hlen : b.encoded.length = encoded.length
      · simp [hsame, hlen, bind, Except.bind]
      · simp [hsame, hlen]

/-- The index classifies as the ledger does. -/
lemma IndexedView.classify_eq {n : ℕ} {l : List (Arrival Op)} {chain : IndexedChain Op}
    (h : IndexedView n l chain) {a : Arrival Op}
    (hread : ∀ b ∈ l, readEncodedAt a.directory b.location = .ok b.encoded) :
    chain.classify a.directory a.id a.encoded = .ok (verdict l a) := by
  have hentry := h.entries a.id
  have hconflicts := h.conflicts a.id
  have hknown : (∃ b ∈ variantsIn l a.id, b.encoded = a.encoded)
      ↔ Ledger.Known Arrival.id Arrival.encoded l a := by
    simp only [Ledger.mem_variants, Ledger.Known, and_assoc]
  unfold IndexedChain.classify verdict
  cases hvariants : variantsIn l a.id with
  | nil =>
    rw [hvariants] at hentry hknown
    have hnot : ¬ Ledger.Known Arrival.id Arrival.encoded l a := fun hk => by
      obtain ⟨b, hb, -⟩ := hknown.mpr hk
      cases hb
    rw [hentry, if_neg hnot, if_pos rfl]
  | cons b rest =>
    rw [hvariants] at hentry hconflicts
    have hlocations : b.location :: chain.conflicts[a.id]?.getD []
        = (variantsIn l a.id).map Arrival.location := by
      rw [hconflicts, hvariants]
      rfl
    have hholds := holds_locations a.encoded
      fun c (hc : c ∈ variantsIn l a.id) => hread c (Ledger.mem_variants.mp hc).1
    rw [hentry]
    simp only [hlocations, hholds, hknown]
    by_cases hk : Ledger.Known Arrival.id Arrival.encoded l a
    · simp [hk, bind, Except.bind, pure, Except.pure]
    · simp [hk, bind, Except.bind, pure, Except.pure]

/-- One step of the index. -/
lemma IndexedView.step {n : ℕ} {l : List (Arrival Op)} {chain : IndexedChain Op}
    (h : IndexedView n l chain) (hnodup : (l.map fun a => (a.id, a.encoded)).Nodup)
    {a : Arrival Op} (hread : ∀ b ∈ l, readEncodedAt a.directory b.location = .ok b.encoded) :
    ∃ after, (IndexedChain.admitRecord a.directory a.op a.encoded a.location).exec chain
        = (.ok (verdict l a), after)
      ∧ IndexedView (n + 1) (Ledger.retain Arrival.id Arrival.encoded l a) after := by
  have hclass : chain.classify a.directory (Schema.id a.op) a.encoded = .ok (verdict l a) :=
    h.classify_eq hread
  unfold IndexedChain.admitRecord
  rw [exec_bind_of_ok (exec_get chain), exec_bind_of_ok (by rw [exec_lift, hclass])]
  rcases verdict_cases l a with ⟨hv, hmem, hretain⟩ | ⟨hv, hnil, hretain⟩ | ⟨hv, hold, hnew, hretain⟩
  · rw [hv, hretain]
    exact ⟨_, rfl, h.entries, h.conflicts, h.counted.duplicate, h.accepted⟩
  · rw [hv, hretain]
    refine ⟨_, rfl, ?_, ?_, h.counted.accepted hnil _, ?_⟩
    · intro id
      rw [variantsIn_append]
      by_cases hid : a.id = id
      · rw [if_pos hid, ← hid, hnil]
        simp [Arrival.id]
      · have hid' : ¬ Schema.id a.op = id := hid
        rw [if_neg hid, ← h.entries id]
        simp [ExtTreeMap.getElem?_insert, hid']
    · intro id
      rw [variantsIn_append]
      by_cases hid : a.id = id
      · rw [if_pos hid, h.conflicts id, ← hid, hnil]
        rfl
      · rw [if_neg hid, h.conflicts id]
    · have hkey := variantsIn_eq_nil.mp hnil
      simp only [evidenceOf_append, KeyedEvidence.accepted_insert_of_notMem _ hkey, h.accepted]
      rw [Finset.card_insert_of_notMem]
      intro hmem
      exact hkey (Finset.mem_filter.mp hmem).1
  · obtain ⟨b, rest, hvariants⟩ := List.exists_cons_of_ne_nil hold
    have hentry : chain.entries[Schema.id a.op]?
        = some ⟨b.location, if rest = [] then some b.op else none⟩ := by
      have hentry := h.entries a.id
      rw [hvariants] at hentry
      exact hentry
    have hwas : (if rest = [] then some b.op else none).isSome = true
        ↔ a.id ∈ KeyedEvidence.accepted (evidenceOf l) := by
      rw [mem_accepted_evidenceOf hnodup, hvariants]
      by_cases hrest : rest = [] <;> simp [hrest]
    have hkey : a.id ∈ KeyedEvidence.keys (evidenceOf l) := by
      by_contra hnot
      exact hold (variantsIn_eq_nil.mpr hnot)
    rw [hv, hretain]
    simp only [hentry]
    refine ⟨_, rfl, ?_, ?_, ?_, ?_⟩
    · intro id
      rw [variantsIn_append]
      by_cases hid : a.id = id
      · rw [if_pos hid, ← hid, hvariants]
        simp [Arrival.id]
      · have hid' : ¬ Schema.id a.op = id := hid
        rw [if_neg hid, ← h.entries id]
        simp [ExtTreeMap.getElem?_insert, hid']
    · intro id
      rw [variantsIn_append]
      by_cases hid : a.id = id
      · have hconflicts := h.conflicts a.id
        rw [hvariants] at hconflicts
        rw [if_pos hid, ← hid, hvariants]
        simp only [Arrival.id] at hconflicts ⊢
        simp [hconflicts]
      · have hid' : ¬ Schema.id a.op = id := hid
        rw [if_neg hid, ← h.conflicts id]
        simp [ExtTreeMap.getElem?_insert, hid']
    · simp only [hwas]
      exact h.counted.conflict hold hnew _
    · simp only [hwas, h.accepted, evidenceOf_append,
        KeyedEvidence.accepted_insert_of_mem hkey hnew]
      by_cases hmem : a.id ∈ KeyedEvidence.accepted (evidenceOf l)
      · rw [if_pos hmem, Finset.card_erase_of_mem hmem]
      · rw [if_neg hmem, Finset.erase_eq_of_notMem hmem]

end Indexed

/-! ## The replication corpus -/

section Replication

variable [Blake3]

/-- The key of a record. -/
def Arrival.key (a : Arrival Op) : RecordKey := ⟨a.id, Blake3.hash a.encoded⟩

/-- The replication corpus seen from the ledger. -/
def CorpusView (l : List (Arrival Op)) (corpus : Corpus) : Prop :=
  ∀ key, corpus.records[key]?
    = (l.find? fun a => a.key = key).map fun a => ⟨a.encoded, a.location.segmentSeq⟩

omit [Blake3] in
lemma zero_isLE_compare (a : Digest) : (compare 0 a).isLE := by
  show (compareOfLessAndEq 0 a).isLE
  unfold compareOfLessAndEq
  by_cases hlt : 0 < a
  · rw [if_pos hlt]
    rfl
  · have hzero : 0 = a := by bv_omega
    rw [if_neg hlt, if_pos hzero]
    rfl

omit [Blake3] in
lemma compare_allOnes_isLE (a : Digest) : (compare a (BitVec.allOnes 256)).isLE := by
  show (compareOfLessAndEq a (BitVec.allOnes 256)).isLE
  unfold compareOfLessAndEq
  by_cases hlt : a < BitVec.allOnes 256
  · rw [if_pos hlt]
    rfl
  · have hmax : a = BitVec.allOnes 256 := by
      have hle : a ≤ BitVec.allOnes 256 := BitVec.le_def.mpr (by
        have := a.isLt
        simp
        omega)
      bv_omega
    rw [if_neg hlt, if_pos hmax]
    rfl

omit [Blake3] in
/-- The order of keys brackets exactly one identity. -/
lemma key_between {id : OpId} {key : RecordKey} :
    ((compare (⟨id, 0⟩ : RecordKey) key).isLE
      ∧ (compare key (⟨id, BitVec.allOnes 256⟩ : RecordKey)).isLE) ↔ key.id = id := by
  have hfirst : compare (⟨id, 0⟩ : RecordKey) key
      = (compare id key.id).then (compare 0 key.digest) := rfl
  have hlast : compare key (⟨id, BitVec.allOnes 256⟩ : RecordKey)
      = (compare key.id id).then (compare key.digest (BitVec.allOnes 256)) := rfl
  rw [hfirst, hlast]
  constructor
  · intro h
    have hle := Ordering.isLE_left_of_isLE_then h.1
    have hge := Ordering.isLE_left_of_isLE_then h.2
    cases hcmp : compare id key.id with
    | lt =>
      rw [Std.OrientedCmp.gt_iff_lt.mpr hcmp] at hge
      cases hge
    | eq => exact (Std.LawfulEqOrd.eq_of_compare hcmp).symm
    | gt =>
      rw [hcmp] at hle
      cases hle
  · intro h
    simp only [h, Std.ReflOrd.compare_self, Ordering.eq_then]
    exact ⟨zero_isLE_compare _, compare_allOnes_isLE _⟩

omit [Blake3] in
/-- The range of an identity holds its keys and no others. -/
lemma mem_range {corpus : Corpus} {id : OpId} {key : RecordKey} :
    key ∈ corpus.range ⟨id, 0⟩ ⟨id, BitVec.allOnes 256⟩ ↔ key ∈ corpus.records ∧ key.id = id := by
  simp only [Corpus.range, List.mem_filter, ExtTreeMap.mem_keys, decide_eq_true_eq, key_between]

lemma CorpusView.mem_records {l : List (Arrival Op)} {corpus : Corpus} (h : CorpusView l corpus)
    {key : RecordKey} : key ∈ corpus.records ↔ ∃ a ∈ l, a.key = key := by
  rw [← ExtTreeMap.isSome_getElem?_iff_mem, h key]
  simp

/-- The range of an identity is empty exactly if the ledger has no variant of it. -/
lemma CorpusView.range_eq_nil {l : List (Arrival Op)} {corpus : Corpus} (h : CorpusView l corpus)
    (id : OpId) :
    corpus.range ⟨id, 0⟩ ⟨id, BitVec.allOnes 256⟩ = [] ↔ variantsIn l id = [] := by
  rw [List.eq_nil_iff_forall_not_mem, List.eq_nil_iff_forall_not_mem]
  simp only [mem_range, h.mem_records, Ledger.mem_variants, not_and]
  constructor
  · intro hnone a ha hid
    exact hnone a.key ⟨a, ha, rfl⟩ hid
  · rintro hnone key ⟨a, ha, rfl⟩ hid
    exact hnone a ha hid

/-- One step of the replication corpus. -/
lemma CorpusView.step {l : List (Arrival Op)} {corpus : Corpus} (h : CorpusView l corpus)
    {a : Arrival Op}
    (hhash : ∀ b ∈ l, Blake3.hash b.encoded = Blake3.hash a.encoded → b.encoded = a.encoded) :
    ∃ after, (Corpus.admitRecord a.op a.encoded a.location).exec corpus
        = (.ok (verdict l a), after)
      ∧ CorpusView (Ledger.retain Arrival.id Arrival.encoded l a) after := by
  have hfound := h a.key
  unfold Corpus.admitRecord
  rw [exec_bind_of_ok (exec_modify _ corpus), exec_bind_of_ok (exec_get _)]
  simp only [show (⟨Schema.id a.op, Blake3.hash a.encoded⟩ : RecordKey) = a.key from rfl]
  cases hfind : l.find? fun b => b.key = a.key with
  | some b =>
    have hb := List.mem_of_find?_eq_some hfind
    have hkey : b.key = a.key := by simpa using List.find?_some hfind
    have hid : b.id = a.id := congrArg RecordKey.id hkey
    have hsame : b.encoded = a.encoded := hhash b hb (congrArg RecordKey.digest hkey)
    have hknown : Ledger.Known Arrival.id Arrival.encoded l a := ⟨b, hb, hid, hsame⟩
    rw [hfind] at hfound
    refine ⟨{ corpus with decoded := corpus.decoded + 1 }, ?_, ?_⟩
    · simp only [hfound, Option.map_some, hsame, verdict, if_pos hknown, ne_eq, not_true_eq_false,
        if_false, exec_pure]
    · rw [Ledger.retain_of_known hknown]
      exact h
  | none =>
    have hnot : ¬ Ledger.Known Arrival.id Arrival.encoded l a := by
      rintro ⟨b, hb, hid, hsame⟩
      have hne : b.key ≠ a.key := by simpa using List.find?_eq_none.mp hfind b hb
      exact hne (by rw [Arrival.key, Arrival.key, hid, hsame])
    rw [hfind] at hfound
    refine ⟨⟨corpus.records.insert a.key ⟨a.encoded, a.location.segmentSeq⟩,
      corpus.decoded + 1⟩, ?_, ?_⟩
    · have hrange : ({ corpus with decoded := corpus.decoded + 1 } : Corpus).range
          ⟨Schema.id a.op, 0⟩ ⟨Schema.id a.op, BitVec.allOnes 256⟩ = [] ↔ variantsIn l a.id = [] :=
        h.range_eq_nil a.id
      simp only [hfound, Option.map_none, verdict, if_neg hnot]
      rw [exec_bind_of_ok (exec_set _ _), exec_pure]
      by_cases hnil : variantsIn l a.id = []
      · rw [hrange.mpr hnil, if_pos hnil]
        rfl
      · obtain ⟨key, rest, hcons⟩ := List.exists_cons_of_ne_nil fun hempty => hnil (hrange.mp hempty)
        rw [hcons, if_neg hnil]
        rfl
    · rw [Ledger.retain_of_not_known hnot]
      intro key
      rw [List.find?_append]
      by_cases hkey : a.key = key
      · subst hkey
        simp [hfind]
      · rw [ExtTreeMap.getElem?_insert, if_neg (by simpa using hkey), h key]
        simp [hkey]

end Replication

/-! ## Whole runs -/

section Runs

variable [Blake3] [Checksum]

/-- The arrivals can be read back later, and told apart by their digests. -/
structure Faithful (arrivals : List (Arrival Op)) : Prop where
  /-- Recorded locations read back the exact bytes. -/
  readable : arrivals.Pairwise fun a b => readEncodedAt b.directory a.location = .ok a.encoded
  /-- BLAKE3 does not collide on the records that were fed. -/
  collisionFree : ∀ a ∈ arrivals, ∀ b ∈ arrivals,
    Blake3.hash a.encoded = Blake3.hash b.encoded → a.encoded = b.encoded

/-- Fed with the same records, all three corpora give the answers of the ledger, and end as views
of it. -/
lemma feed_views {arrivals : List (Arrival Op)} (h : Faithful arrivals) :
    ∃ (chain : CanonicalChain Op) (index : IndexedChain Op) (corpus : Corpus),
      feed arrivals TailCorpus.empty = ((answers arrivals).map .ok, chain)
        ∧ feed arrivals TailCorpus.empty = ((answers arrivals).map .ok, index)
        ∧ feed arrivals TailCorpus.empty = ((answers arrivals).map .ok, corpus)
        ∧ CanonicalView arrivals.length (firsts arrivals) chain
        ∧ IndexedView arrivals.length (firsts arrivals) index
        ∧ CorpusView (firsts arrivals) corpus := by
  induction arrivals using List.reverseRecOn with
  | nil =>
    have hcounted : Counted 0 ([] : List (Arrival Op)) {} := by
      refine ⟨rfl, ?_, ?_, rfl, rfl⟩ <;> simp [evidenceOf_nil]
    refine ⟨{}, {}, {}, rfl, rfl, rfl, ⟨?_, ?_, hcounted⟩, ⟨?_, ?_, hcounted, ?_⟩, ?_⟩
    · rw [OpSet.pairs_new]
      rfl
    · intro id
      simp [Ledger.ledger]
    · intro id
      simp [Ledger.ledger]
    · intro id
      simp [Ledger.ledger]
    · simp [Ledger.ledger, evidenceOf_nil]
    · intro key
      simp [Ledger.ledger]
  | append_singleton arrivals a ih =>
    obtain ⟨hpairs, -, hlast⟩ := List.pairwise_append.mp h.readable
    obtain ⟨chain, index, corpus, hchain, hindex, hcorpus, vchain, vindex, vcorpus⟩ :=
      ih ⟨hpairs, fun b hb c hc => h.collisionFree b (List.mem_append_left _ hb) c
        (List.mem_append_left _ hc)⟩
    have hmem := (@Ledger.ledger_spec _ _ _ _ _ Arrival.id Arrival.encoded arrivals).1
    obtain ⟨hanswer, vchain'⟩ := vchain.step a
    obtain ⟨index', hexec, vindex'⟩ := vindex.step (Ledger.nodup_ledger arrivals)
      fun b hb => hlast b (hmem b hb) a (List.mem_singleton.mpr rfl)
    obtain ⟨corpus', hexec', vcorpus'⟩ := vcorpus.step fun b hb =>
      h.collisionFree b (List.mem_append_left _ (hmem b hb)) a
        (List.mem_append_right _ (List.mem_singleton.mpr rfl))
    have hfirst : (TailCorpus.admitRecord a.directory a.op a.encoded a.location).exec chain
        = (.ok (verdict (firsts arrivals) a),
          (chain.admitOp a.op a.encoded (some a.location)).2) := by
      rw [← hanswer]
      rfl
    have hlength : (arrivals ++ [a]).length = arrivals.length + 1 := by simp
    have hledger : firsts (arrivals ++ [a])
        = Ledger.retain Arrival.id Arrival.encoded (firsts arrivals) a :=
      Ledger.ledger_append_singleton arrivals a
    rw [hlength, hledger, answers_append_singleton, List.map_append]
    refine ⟨(chain.admitOp a.op a.encoded (some a.location)).2, index', corpus', ?_, ?_, ?_,
      vchain', vindex', vcorpus'⟩
    · rw [feed_append, hchain]
      simp [feed, hfirst]
    · rw [feed_append, hindex]
      have hone : (TailCorpus.admitRecord a.directory a.op a.encoded a.location).exec index
          = (.ok (verdict (firsts arrivals) a), index') := hexec
      simp [feed, hone]
    · rw [feed_append, hcorpus]
      have hone : (TailCorpus.admitRecord a.directory a.op a.encoded a.location).exec corpus
          = (.ok (verdict (firsts arrivals) a), corpus') := hexec'
      simp [feed, hone]

/-! ## What the views say -/

omit [Blake3] [Checksum] in
lemma CanonicalView.isSome_accepted {n : ℕ} {l : List (Arrival Op)} {chain : CanonicalChain Op}
    (h : CanonicalView n l chain) (id : OpId) :
    chain.accepted[id]?.isSome ↔ (variantsIn l id).length = 1 := by
  rw [h.accepted id]
  cases variantsIn l id with
  | nil => simp
  | cons a rest => cases rest <;> simp

omit [Blake3] [Checksum] in
/-- The counts of the canonical chain, with the size of its accepted map. -/
lemma CanonicalView.stats_eq {n : ℕ} {l : List (Arrival Op)} {chain : CanonicalChain Op}
    (h : CanonicalView n l chain) (hnodup : (l.map fun a => (a.id, a.encoded)).Nodup) :
    chain.stats.accepted = (KeyedEvidence.accepted (evidenceOf l)).card := by
  refine size_eq_card chain.accepted fun id => ?_
  rw [h.isSome_accepted, mem_accepted_evidenceOf hnodup]

omit [Blake3] [Checksum] in
/-- Two corpora with the same ledger have the same counts. -/
lemma Counted.ext {n : ℕ} {l : List (Arrival Op)} {c d : ChainReadStats} (hc : Counted n l c)
    (hd : Counted n l d) (haccepted : c.accepted = d.accepted) : c = d := by
  have hrecords := hc.records.trans hd.records.symm
  have hundecodable := hc.undecodable.trans hd.undecodable.symm
  have htails := hc.incompleteTails.trans hd.incompleteTails.symm
  have hduplicates : c.duplicates = d.duplicates := by
    have := hc.duplicates
    have := hd.duplicates
    omega
  have hquarantined : c.quarantined = d.quarantined := by
    have := hc.quarantined
    have := hd.quarantined
    omega
  cases c
  cases d
  simp only at *
  simp [*]

omit [Blake3] [Checksum] in
lemma IndexedView.isSome_get {n : ℕ} {l : List (Arrival Op)} {index : IndexedChain Op}
    (h : IndexedView n l index) (id : OpId) :
    (index.get id).isSome ↔ (variantsIn l id).length = 1 := by
  unfold IndexedChain.get
  rw [h.entries id]
  cases variantsIn l id with
  | nil => simp
  | cons a rest => cases rest <;> simp

omit [Blake3] [Checksum] in
lemma IndexedView.recordLocations_eq {n : ℕ} {l : List (Arrival Op)} {index : IndexedChain Op}
    (h : IndexedView n l index) (id : OpId) :
    index.recordLocations id = (variantsIn l id).map Arrival.location := by
  unfold IndexedChain.recordLocations
  rw [h.entries id, h.conflicts id]
  cases variantsIn l id <;> simp

omit [Checksum] in
/-- A record of the ledger is found under its key. -/
lemma find?_key {l : List (Arrival Op)} (hnodup : (l.map fun a => (a.id, a.encoded)).Nodup)
    (hhash : ∀ a ∈ l, ∀ b ∈ l, Blake3.hash a.encoded = Blake3.hash b.encoded →
      a.encoded = b.encoded) {a : Arrival Op} (ha : a ∈ l) :
    l.find? (fun b => b.key = a.key) = some a := by
  cases hfind : l.find? fun b => b.key = a.key with
  | none =>
    have hne := List.find?_eq_none.mp hfind a ha
    simp at hne
  | some b =>
    have hb := List.mem_of_find?_eq_some hfind
    have hkey : b.key = a.key := by simpa using List.find?_some hfind
    have hsame := hhash b hb a ha (congrArg RecordKey.digest hkey)
    have hpair : (b.id, b.encoded) = (a.id, a.encoded) := by
      rw [hsame, show b.id = a.id from congrArg RecordKey.id hkey]
    rw [List.inj_on_of_nodup_map hnodup hb ha hpair]

omit [Checksum] in
/-- The range of an identity has a key for each of its variants. -/
lemma CorpusView.length_range {l : List (Arrival Op)} {corpus : Corpus} (h : CorpusView l corpus)
    (hnodup : (l.map fun a => (a.id, a.encoded)).Nodup)
    (hhash : ∀ a ∈ l, ∀ b ∈ l, Blake3.hash a.encoded = Blake3.hash b.encoded →
      a.encoded = b.encoded) (id : OpId) :
    (corpus.range ⟨id, 0⟩ ⟨id, BitVec.allOnes 256⟩).length = (variantsIn l id).length := by
  have hkeys : ((variantsIn l id).map Arrival.key).Nodup := by
    refine List.Nodup.map_on ?_ (List.Nodup.of_map _ (nodup_encoded_variantsIn hnodup id))
    intro a ha b hb hkey
    have hsame := hhash a (Ledger.mem_variants.mp ha).1 b (Ledger.mem_variants.mp hb).1
      (congrArg RecordKey.digest hkey)
    exact List.inj_on_of_nodup_map (nodup_encoded_variantsIn hnodup id) ha hb hsame
  have hrange : (corpus.range ⟨id, 0⟩ ⟨id, BitVec.allOnes 256⟩).Nodup :=
    List.filter_sublist.nodup ExtTreeMap.nodup_keys
  have hperm : (corpus.range ⟨id, 0⟩ ⟨id, BitVec.allOnes 256⟩).Perm
      ((variantsIn l id).map Arrival.key) := by
    refine (List.perm_ext_iff_of_nodup hrange hkeys).mpr ?_
    intro key
    rw [mem_range, h.mem_records, List.mem_map]
    constructor
    · rintro ⟨⟨a, ha, rfl⟩, hid⟩
      exact ⟨a, Ledger.mem_variants.mpr ⟨ha, hid⟩, rfl⟩
    · rintro ⟨a, ha, rfl⟩
      obtain ⟨hmem, hid⟩ := Ledger.mem_variants.mp ha
      exact ⟨⟨a, hmem, rfl⟩, hid⟩
  rw [hperm.length_eq, List.length_map]

/-- The three corpora agree: on every answer, on the accepted identities, on the retained variants
and on the place of first occurrence, and the first two on their counts, which add up. -/
theorem corpora_agree (arrivals : List (Arrival Op)) (h : Faithful arrivals) :
    ∃ (admissions : List Admission) (chain : CanonicalChain Op) (index : IndexedChain Op)
      (corpus : Corpus),
      (feed arrivals TailCorpus.empty = (admissions.map .ok, chain)
        ∧ feed arrivals TailCorpus.empty = (admissions.map .ok, index)
        ∧ feed arrivals TailCorpus.empty = (admissions.map .ok, corpus))
      ∧ (∀ id, (chain.accepted[id]?.isSome ↔ chain.evidence.contains id)
        ∧ ((index.get id).isSome ↔ chain.evidence.contains id)
        ∧ ((corpus.range ⟨id, 0⟩ ⟨id, BitVec.allOnes 256⟩).length = 1
          ↔ chain.evidence.contains id))
      ∧ (∀ d, (∀ a ∈ arrivals, readEncodedAt d a.location = .ok a.encoded) → ∀ id bytes,
        (∃ location ∈ index.recordLocations id, readEncodedAt d location = .ok bytes)
          ↔ (id, bytes) ∈ chain.evidence.pairs)
      ∧ (∀ id, (index.recordLocations id).length = (chain.evidence.variantsOf id).size)
      ∧ (∀ id bytes, (∃ segment, corpus.records[(⟨id, Blake3.hash bytes⟩ : RecordKey)]?
          = some ⟨bytes, segment⟩) ↔ (id, bytes) ∈ chain.evidence.pairs)
      ∧ (∀ (key : RecordKey) (record : RetainedRecord), corpus.records[key]? = some record →
        key.digest = Blake3.hash record.bytes)
      ∧ (∀ id, chain.evidence.contains id → ∃ a, arrivals.find? (·.id = id) = some a
        ∧ chain.accepted[id]? = some (a.op, some a.location)
        ∧ index.entries[id]? = some ⟨a.location, some a.op⟩
        ∧ corpus.records[a.key]? = some ⟨a.encoded, a.location.segmentSeq⟩)
      ∧ chain.stats = index.stats
      ∧ chain.stats.records
          = chain.stats.accepted + chain.stats.quarantined + chain.stats.duplicates
      ∧ chain.stats.quarantined
          = (chain.evidence.pairs.filter (·.1 ∈ chain.evidence.conflictedIds)).card := by
  obtain ⟨chain, index, corpus, hchain, hindex, hcorpus, vchain, vindex, vcorpus⟩ := feed_views h
  have hnodup := @Ledger.nodup_ledger _ _ _ _ _ Arrival.id Arrival.encoded arrivals
  have hmem := (@Ledger.ledger_spec _ _ _ _ _ Arrival.id Arrival.encoded arrivals).1
  have hhash : ∀ a ∈ firsts arrivals, ∀ b ∈ firsts arrivals,
      Blake3.hash a.encoded = Blake3.hash b.encoded → a.encoded = b.encoded :=
    fun a ha b hb => h.collisionFree a (hmem a ha) b (hmem b hb)
  have hcontains : ∀ id, chain.evidence.contains id = true
      ↔ (variantsIn (firsts arrivals) id).length = 1 := by
    intro id
    rw [OpSet.contains_iff, OpSet.acceptedIds, vchain.evidence, mem_accepted_evidenceOf hnodup]
  have hfind : ∀ {a : Arrival Op}, a ∈ firsts arrivals →
      (firsts arrivals).find? (fun b => b.key = a.key) = some a :=
    fun ha => find?_key hnodup hhash ha
  refine ⟨answers arrivals, chain, index, corpus, ⟨hchain, hindex, hcorpus⟩, ?_, ?_, ?_, ?_, ?_,
    ?_, ?_, ?_, ?_⟩
  · intro id
    rw [hcontains, vchain.isSome_accepted, vindex.isSome_get, vcorpus.length_range hnodup hhash]
    exact ⟨Iff.rfl, Iff.rfl, Iff.rfl⟩
  · intro d hd id bytes
    rw [vindex.recordLocations_eq, vchain.evidence, mem_evidenceOf]
    constructor
    · rintro ⟨location, hlocation, hread⟩
      obtain ⟨a, ha, rfl⟩ := List.mem_map.mp hlocation
      obtain ⟨hal, hid⟩ := Ledger.mem_variants.mp ha
      rw [hd a (hmem a hal)] at hread
      cases hread
      exact ⟨a, hal, hid, rfl⟩
    · rintro ⟨a, ha, hid, rfl⟩
      exact ⟨a.location, List.mem_map.mpr ⟨a, Ledger.mem_variants.mpr ⟨ha, hid⟩, rfl⟩,
        hd a (hmem a ha)⟩
  · intro id
    rw [vindex.recordLocations_eq, List.length_map, ← OpSet.card_variants_pairs, vchain.evidence,
      card_variants_evidenceOf hnodup]
  · intro id bytes
    rw [vchain.evidence, mem_evidenceOf, vcorpus]
    constructor
    · rintro ⟨segment, hsome⟩
      obtain ⟨a, ha, heq⟩ := Option.map_eq_some_iff.mp hsome
      have hkey : a.key = ⟨id, Blake3.hash bytes⟩ := by simpa using List.find?_some ha
      exact ⟨a, List.mem_of_find?_eq_some ha, congrArg RecordKey.id hkey,
        congrArg RetainedRecord.bytes heq⟩
    · rintro ⟨a, ha, rfl, rfl⟩
      refine ⟨a.location.segmentSeq, ?_⟩
      have hown := hfind ha
      rw [Arrival.key] at hown
      rw [hown]
      rfl
  · intro key record hrecord
    rw [vcorpus key] at hrecord
    obtain ⟨a, ha, rfl⟩ := Option.map_eq_some_iff.mp hrecord
    have hkey : a.key = key := by simpa using List.find?_some ha
    rw [← hkey]
    rfl
  · intro id hid
    have hone := (hcontains id).mp hid
    obtain ⟨a, hvariants⟩ := List.length_eq_one_iff.mp hone
    have ha : a ∈ variantsIn (firsts arrivals) id := by
      rw [hvariants]
      exact List.mem_singleton.mpr rfl
    refine ⟨a, ?_, ?_, ?_, ?_⟩
    · exact (Ledger.head?_variants_ledger arrivals id).symm.trans (congrArg List.head? hvariants)
    · rw [vchain.accepted, hvariants]
    · rw [vindex.entries, hvariants]
      rfl
    · rw [vcorpus, hfind (Ledger.mem_variants.mp ha).1]
      rfl
  · refine Counted.ext ⟨vchain.counted.records, vchain.counted.duplicates,
      vchain.counted.quarantined, vchain.counted.undecodable, vchain.counted.incompleteTails⟩
      vindex.counted ?_
    rw [vchain.stats_eq hnodup, vindex.accepted]
  · have hrecords := vchain.counted.records
    have hduplicates := vchain.counted.duplicates
    have hquarantined := vchain.counted.quarantined
    have haccepted := vchain.stats_eq hnodup
    simp only [CanonicalChain.stats] at haccepted ⊢
    omega
  · have hquarantined := vchain.counted.quarantined
    have htotal := KeyedEvidence.card_eq_card_accepted_add (evidenceOf (firsts arrivals))
    rw [OpSet.conflictedIds, vchain.evidence, KeyedEvidence.card_filter_conflicted]
    simp only [CanonicalChain.stats]
    omega

end Runs

/-! ## Two encodings of one message -/

/-- A segment with one legacy page that holds both encodings of the message, the first twice. -/
def messageSegment : SegmentFile where
  bytes := pageMagic ++ [0, 0, 0, 0] ++ ([29, 0, 0, 0, 0] ++ messageV1)
    ++ ([77, 0, 0, 0, 0] ++ messageV3) ++ ([29, 0, 0, 0, 0] ++ messageV1)
  identity := (1, 1)
  modified := 0

/-- The chain with that segment. -/
def messageChain : Directory :=
  { Directory.empty with segments := (∅ : ExtTreeMap ℕ SegmentFile).insert 0 messageSegment }

/-- Its records in log order. -/
def messageArrivals : List (Arrival OpId) :=
  [⟨messageChain, messageId, messageV1, ⟨0, 13, 29, none⟩⟩,
    ⟨messageChain, messageId, messageV3, ⟨0, 47, 77, none⟩⟩,
    ⟨messageChain, messageId, messageV1, ⟨0, 129, 29, none⟩⟩]

/-- Accepted, then a conflict, then a duplicate: the counts add up. -/
theorem corpora_agree_on_messages :
    ∃ (admissions : List Admission) (chain : CanonicalChain OpId),
      @feed OpId (CanonicalChain OpId) (@instTailCorpusCanonicalChain OpId messageSchema)
          messageArrivals {} = (admissions.map .ok, chain)
        ∧ chain.stats.records
          = chain.stats.accepted + chain.stats.quarantined + chain.stats.duplicates := by
  have hread : messageArrivals.Pairwise fun a b =>
      @readEncodedAt crc32cChecksum b.directory a.location = .ok a.encoded := by
    refine .cons ?_ (.cons ?_ (.cons ?_ .nil))
    · intro b hb
      simp only [List.mem_cons, List.not_mem_nil, or_false] at hb
      rcases hb with rfl | rfl <;> rfl
    · intro b hb
      simp only [List.mem_cons, List.not_mem_nil, or_false] at hb
      subst hb
      rfl
    · simp
  have hhash : ∀ a ∈ messageArrivals, ∀ b ∈ messageArrivals,
      messageDigests.hash a.encoded = messageDigests.hash b.encoded → a.encoded = b.encoded := by
    have hbytes : ∀ a ∈ messageArrivals.map Arrival.encoded, ∀ b ∈ messageArrivals.map Arrival.encoded,
        messageDigests.hash a = messageDigests.hash b → a = b := by
      decide
    intro a ha b hb
    exact hbytes _ (List.mem_map_of_mem ha) _ (List.mem_map_of_mem hb)
  obtain ⟨admissions, chain, index, corpus, hfeed, -, -, -, -, -, -, -, hsum, -⟩ :=
    @corpora_agree OpId messageSchema messageDigests crc32cChecksum messageArrivals
      (@Faithful.mk OpId messageDigests crc32cChecksum messageArrivals hread hhash)
  exact ⟨admissions, chain, hfeed.1, hsum⟩

end EditChain.Sync
