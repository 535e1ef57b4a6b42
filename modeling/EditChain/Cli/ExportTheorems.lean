import EditChain.Cli.RestoreTheorems
import EditChain.Store.ReaderTheorems
import EditChain.Sync.AccordTheorems
import EditChain.Sync.PortableTheorems

/-!
# Exporting archives

A successful export writes every retained record of the chain once, in the order of the keys, with
the content it refers to, and a summary that counts the records.
-/

namespace EditChain.Store

open Core
open Std (ExtTreeMap ExtTreeSet)

variable {Op : Type} [Schema Op] [Checksum]

namespace CanonicalChain

/-- The counters tell the number of retained records apart from those of accepted identities. -/
structure Balanced (chain : CanonicalChain Op) : Prop where
  accepted : ∀ id : OpId, id ∈ chain.accepted ↔ id ∈ KeyedEvidence.accepted chain.evidence.pairs
  counted : chain.counts.quarantined + chain.accepted.size = chain.evidence.pairs.card
  decodes : ∀ id bytes, (id, bytes) ∈ chain.evidence.pairs → Decodes id bytes

omit [Checksum] in
lemma balanced_empty : Balanced ({} : CanonicalChain Op) := by
  refine ⟨fun id => ?_, ?_, fun id bytes hmem => ?_⟩
  · show id ∈ (∅ : ExtTreeMap OpId (Op × Option OpRecordLocation)) ↔ id ∈ KeyedEvidence.accepted
      OpSet.new.pairs
    rw [OpSet.pairs_new, KeyedEvidence.accepted_empty]
    simp
  · show 0 + (∅ : ExtTreeMap OpId (Op × Option OpRecordLocation)).size = OpSet.new.pairs.card
    rw [OpSet.pairs_new]
    rfl
  · rw [show ({} : CanonicalChain Op).evidence.pairs = ∅ from OpSet.pairs_new] at hmem
    cases hmem

omit [Checksum] in
/-- Admission keeps the balance. -/
lemma Balanced.admitOp {chain : CanonicalChain Op} (h : Balanced chain) {op : Op} {encoded : Bytes}
    (hop : Schema.decodeOp encoded = .ok op) (location : Option OpRecordLocation) :
    Balanced (chain.admitOp op encoded location).2 := by
  have hcounted := h.counted
  have hdecodes : ∀ id bytes,
      (id, bytes) ∈ (chain.evidence.retain (Schema.id op) encoded).pairs → Decodes id bytes := by
    intro id bytes hmem
    rw [OpSet.pairs_retain, Finset.mem_insert] at hmem
    rcases hmem with heq | hold
    · cases heq
      exact ⟨op, hop, rfl⟩
    · exact h.decodes id bytes hold
  have hwas : chain.evidence.contains (Schema.id op) = true ↔ Schema.id op ∈ chain.accepted := by
    rw [OpSet.contains_iff, h.accepted]
    rfl
  unfold CanonicalChain.admitOp
  rw [OpSet.insert_eq]
  dsimp only
  cases hclass : chain.evidence.classify (Schema.id op) encoded with
  | accepted =>
    have hnew := OpSet.classify_eq_accepted_iff.mp hclass
    have hpair : (Schema.id op, encoded) ∉ chain.evidence.pairs := fun hmem =>
      hnew (KeyedEvidence.mem_keys.mpr ⟨_, hmem⟩)
    have hnot : Schema.id op ∉ chain.accepted := by
      rw [h.accepted]
      intro hmem
      exact hnew (Finset.mem_filter.mp hmem).1
    refine ⟨fun id => ?_, ?_, hdecodes⟩
    · show id ∈ chain.accepted.insert (Schema.id op) _
        ↔ id ∈ KeyedEvidence.accepted (chain.evidence.retain _ _).pairs
      rw [OpSet.pairs_retain, KeyedEvidence.accepted_insert_of_notMem _ hnew, Finset.mem_insert,
        ExtTreeMap.mem_insert, ← h.accepted, Std.compare_eq_iff_eq, eq_comm]
    · show chain.counts.quarantined + (chain.accepted.insert (Schema.id op) _).size
        = (chain.evidence.retain _ _).pairs.card
      rw [OpSet.pairs_retain, Finset.card_insert_of_notMem hpair, ExtTreeMap.size_insert,
        if_neg fun hin => hnot (ExtTreeMap.contains_iff_mem.mp hin)]
      omega
  | duplicate =>
    have hpair := OpSet.classify_eq_duplicate_iff.mp hclass
    rw [retain_of_mem hpair]
    exact ⟨h.accepted, h.counted, h.decodes⟩
  | conflict =>
    have hkey : Schema.id op ∈ KeyedEvidence.keys chain.evidence.pairs := by
      by_contra hnot
      rw [OpSet.classify_eq_accepted_iff.mpr hnot] at hclass
      cases hclass
    have hpair : (Schema.id op, encoded) ∉ chain.evidence.pairs := by
      intro hmem
      rw [OpSet.classify_eq_duplicate_iff.mpr hmem] at hclass
      cases hclass
    refine ⟨fun id => ?_, ?_, hdecodes⟩
    · show id ∈ chain.accepted.erase (Schema.id op)
        ↔ id ∈ KeyedEvidence.accepted (chain.evidence.retain _ _).pairs
      rw [OpSet.pairs_retain, KeyedEvidence.accepted_insert_of_mem hkey hpair, Finset.mem_erase,
        ExtTreeMap.mem_erase, ← h.accepted, ne_eq, ne_eq, Std.compare_eq_iff_eq, eq_comm]
    · show chain.counts.quarantined + (if chain.evidence.contains (Schema.id op) then 2 else 1)
        + (chain.accepted.erase (Schema.id op)).size = (chain.evidence.retain _ _).pairs.card
      rw [OpSet.pairs_retain, Finset.card_insert_of_notMem hpair, ExtTreeMap.size_erase]
      by_cases hin : Schema.id op ∈ chain.accepted
      · have hpos : chain.accepted.size ≠ 0 := by
          intro hzero
          rw [← ExtTreeMap.eq_empty_iff_size_eq_zero] at hzero
          rw [hzero] at hin
          exact ExtTreeMap.not_mem_empty hin
        rw [if_pos (hwas.mpr hin), if_pos (ExtTreeMap.contains_iff_mem.mpr hin)]
        omega
      · rw [if_neg fun heq => hin (hwas.mp heq),
          if_neg fun hmem => hin (ExtTreeMap.contains_iff_mem.mp hmem)]
        omega

omit [Checksum] in
lemma Balanced.scanItems {chain chain' : CanonicalChain Op} (h : Balanced chain) {segment : ℕ}
    {items : List (Except ScanError ScanItem)}
    (hscan : CanonicalChain.scanItems segment items chain = .ok chain') : Balanced chain' := by
  induction items generalizing chain with
  | nil =>
    cases hscan
    exact h
  | cons item items ih =>
    cases item with
    | error error =>
      rw [CanonicalChain.scanItems] at hscan
      split at hscan
      · cases hscan
        exact ⟨h.accepted, h.counted, h.decodes⟩
      · cases hscan
    | ok item =>
      cases item with
      | page sequence offset => exact ih h hscan
      | record record =>
        apply ih _ hscan
        unfold CanonicalChain.scanRecord
        split
        · next op hop => exact h.admitOp hop _
        · exact ⟨h.accepted, h.counted, h.decodes⟩

lemma Balanced.readSegments {d : Directory} {chain chain' : CanonicalChain Op} (h : Balanced chain)
    {sequences : List ℕ} (hread : CanonicalChain.readSegments d sequences chain = .ok chain') :
    Balanced chain' := by
  induction sequences generalizing chain with
  | nil =>
    cases hread
    exact h
  | cons sequence sequences ih =>
    rw [CanonicalChain.readSegments] at hread
    obtain ⟨bytes, -, hread⟩ := Fallible.bind_eq_ok.mp hread
    obtain ⟨next, hscan, hread⟩ := Fallible.bind_eq_ok.mp hread
    exact ih (h.scanItems hscan) hread

lemma balanced_of_read {d : Directory} {chain : CanonicalChain Op}
    (hread : CanonicalChain.read d = .ok chain) : Balanced chain := by
  unfold CanonicalChain.read at hread
  obtain ⟨sequences, -, hread⟩ := Fallible.bind_eq_ok.mp hread
  exact balanced_empty.readSegments hread

end CanonicalChain
end EditChain.Store

namespace EditChain.Cli

open Core Fallible Store Sync
open Std (ExtTreeMap ExtTreeSet)

variable {Op : Type} [Schema Op] [Blake3]

/-! ## Pages -/

omit [Schema Op] [Blake3] in
/-- What follows a key of a sorted list. -/
lemma filter_after {init rest : List RecordKey} {cursor : RecordKey}
    (h : (init ++ [cursor] ++ rest).Pairwise fun a b => compare a b = .lt) :
    (init ++ [cursor] ++ rest).filter (fun key => decide (compare cursor key = .lt)) = rest := by
  rw [List.pairwise_append] at h
  obtain ⟨hfront, -, hcross⟩ := h
  rw [List.pairwise_append] at hfront
  rw [List.filter_append, List.filter_append]
  have hinit : init.filter (fun key => decide (compare cursor key = .lt)) = [] := by
    rw [List.filter_eq_nil_iff]
    intro key hkey
    have hless : compare key cursor = .lt := hfront.2.2 key hkey cursor (by simp)
    rw [decide_eq_true_eq]
    intro hmore
    exact absurd (Std.TransCmp.lt_trans hless hmore) (by simp)
  have hrest : rest.filter (fun key => decide (compare cursor key = .lt)) = rest := by
    rw [List.filter_eq_self]
    intro key hkey
    rw [decide_eq_true_eq]
    exact hcross cursor (by simp) key hkey
  rw [hinit, hrest]
  simp

/-- A page begins after the last key of the pages before it. -/
lemma snapshotPage_eq {snapshot : Snapshot} {done rest : List RecordKey}
    (h : snapshot.records.keys = done ++ rest) :
    snapshotPage snapshot done.getLast?
      = (rest.take inventoryPage, !(rest.drop inventoryPage).isEmpty) := by
  have hkeys : snapshot.records.keys.filter (fun key =>
      done.getLast?.all fun cursor => decide (compare cursor key = .lt)) = rest := by
    rcases List.eq_nil_or_concat done with rfl | ⟨init, cursor, rfl⟩
    · rw [h]
      simp
    · rw [List.concat_eq_append] at h ⊢
      have hsorted : (init ++ [cursor] ++ rest).Pairwise fun a b => compare a b = .lt :=
        h ▸ snapshot.records.ordered_keys
      rw [h, List.getLast?_append]
      simp only [List.getLast?_singleton, Option.some_or, Option.all_some]
      exact filter_after hsorted
  unfold snapshotPage
  dsimp only
  rw [hkeys]

namespace Exporter

variable {L : Type} [ContentSchema Op] {log : AppendLog L} {snapshot : Snapshot}
  {e e' : Exporter L}

/-- What an export has written after some records. -/
structure Wrote (done : List Bytes) (e : Exporter L) : Prop where
  emitted : ∃ body, e.emitted = .header 1 :: body ∧ operations body = done
    ∧ (e.missing = false → ∀ entry ∈ body, entry.Valid)
    ∧ (∀ bytes ∈ contents body, Blake3.hash bytes ∈ e.exported)
    ∧ ∀ a ∈ contents body, ∀ b ∈ contents body, Blake3.hash a = Blake3.hash b → a = b

omit [Blake3] in
lemma exec_io_eq_ok {σ α : Type} {m : Fallible IoError σ α} {s t : σ} {a : α}
    (h : (io m).exec s = (.ok a, t)) : m.exec s = (.ok a, t) := by
  change ((m.exec s).1.mapError Failure.ofIo, (m.exec s).2) = _ at h
  obtain ⟨hresult, rfl⟩ := Prod.mk.inj h
  cases hm : (m.exec s).1 with
  | ok b =>
    rw [hm] at hresult
    cases hresult
    rw [← hm]
  | error error =>
    rw [hm] at hresult
    cases hresult

omit [ContentSchema Op] in
/-- A call of the replica changes nothing else. -/
lemma exec_onReplica_eq_ok {α : Type} {a : α}
    {m : Fallible IoError (StoreReplica L BlobFiles ExportScope) α}
    (h : (onReplica m).exec e = (.ok a, e')) :
    ∃ replica, m.exec e.replica = (.ok a, replica) ∧ e' = { e with replica := replica } := by
  have hzoom := exec_io_eq_ok h
  rw [exec_zoom] at hzoom
  obtain ⟨hresult, rfl⟩ := Prod.mk.inj hzoom
  exact ⟨(m.exec e.replica).2, Prod.ext hresult rfl, rfl⟩

/-- What a replica returns for a hash has it. -/
lemma hash_of_readBlob {key : RecordKey} {hash : Digest} {bytes : Bytes}
    {s t : StoreReplica L BlobFiles ExportScope}
    (h : (StoreReplica.readBlob (adapters log) snapshot key hash).exec s = (.ok (some bytes), t)) :
    Blake3.hash bytes = hash := by
  unfold StoreReplica.readBlob at h
  obtain ⟨references, s₁, -, h⟩ := exec_bind_eq_ok.mp h
  obtain ⟨share, s₂, -, h⟩ := exec_bind_eq_ok.mp h
  cases share with
  | false => cases h
  | true =>
    change (StoreReplica.content (adapters log) references hash).exec s₂ = _ at h
    unfold StoreReplica.content at h
    rw [exec_guard] at h
    split at h
    · cases h
    · obtain ⟨resolution, s₃, -, h⟩ := exec_bind_eq_ok.mp h
      cases resolution with
      | found found =>
        obtain ⟨_, s₄, hvalid, h⟩ := exec_bind_eq_ok.mp h
        cases h
        obtain ⟨hcontent, -⟩ := Prod.mk.inj hvalid
        exact (validateContent_eq_ok.mp hcontent).2.1
      | missing => cases h
      | corrupt => cases h
      | unresolvable => cases h

omit [ContentSchema Op] in
/-- One more entry that is no record. -/
lemma Wrote.emit {done : List Bytes} {entry : Entry} (h : Wrote done e)
    (hkind : operations [entry] = [])
    (hvalid : e'.missing = false → e.missing = false ∧ entry.Valid)
    (hnew : ∀ bytes ∈ contents [entry], Blake3.hash bytes ∉ e.exported
      ∧ Blake3.hash bytes ∈ e'.exported)
    (hone : ∀ a ∈ contents [entry], ∀ b ∈ contents [entry], a = b)
    (hexported : ∀ hash ∈ e.exported, hash ∈ e'.exported)
    (hemitted : e'.emitted = e.emitted ++ [entry]) : Wrote done e' := by
  obtain ⟨body, hbody, hops, hall, hhashes, hdistinct⟩ := h.emitted
  refine ⟨body ++ [entry], ?_, ?_, fun hmissing other hother => ?_, fun bytes hbytes => ?_,
    fun a ha b hb hsame => ?_⟩
  · rw [hemitted, hbody]
    rfl
  · rw [operations_append, hops, hkind, List.append_nil]
  · obtain ⟨hbefore, hentry⟩ := hvalid hmissing
    rcases List.mem_append.mp hother with hold | hlast
    · exact hall hbefore other hold
    · rw [List.mem_singleton] at hlast
      rw [hlast]
      exact hentry
  · rw [contents_append] at hbytes
    rcases List.mem_append.mp hbytes with hold | hlast
    · exact hexported _ (hhashes bytes hold)
    · exact (hnew bytes hlast).2
  · rw [contents_append] at ha hb
    rcases List.mem_append.mp ha with ha | ha
    · rcases List.mem_append.mp hb with hb | hb
      · exact hdistinct a ha b hb hsame
      · exact absurd (hsame ▸ hhashes a ha) (hnew b hb).1
    · rcases List.mem_append.mp hb with hb | hb
      · exact absurd (hsame ▸ hhashes b hb) (hnew a ha).1
      · exact hone a ha b hb

/-- The content behind one hash. -/
lemma Wrote.exportBlob {done : List Bytes} {key : RecordKey} {hash : Digest} (h : Wrote done e)
    (hexec : (exportBlob log snapshot key hash).exec e = (.ok (), e')) : Wrote done e' := by
  unfold Exporter.exportBlob at hexec
  rw [exec_bind_of_ok (exec_get e)] at hexec
  split at hexec
  · cases hexec
    exact h
  · next hnew =>
    rw [exec_bind_of_ok (exec_modify _ e)] at hexec
    obtain ⟨resolved, e₁, hread, hexec⟩ := exec_bind_eq_ok.mp hexec
    obtain ⟨replica, hreplica, rfl⟩ := exec_onReplica_eq_ok hread
    have hinserted : ∀ other ∈ e.exported, other ∈ e.exported.insert hash := by
      intro other hother
      rw [ExtTreeSet.mem_insert]
      exact .inr hother
    cases resolved with
    | none =>
      cases hexec
      apply @Wrote.emit _ _ _ _ _ _ _ (.missingBlob (.hash256 hash)) h rfl
      · intro hmissing
        cases hmissing
      · intro bytes hbytes
        cases hbytes
      · intro a ha
        cases ha
      · exact hinserted
      · rfl
    | some bytes =>
      dsimp only at hexec
      rw [exec_guard] at hexec
      split at hexec
      · cases hexec
      · next hsmall =>
        cases hexec
        have hhash := hash_of_readBlob hreplica
        have hcontents : ∀ a, a ∈ contents [.blob ⟨.hash256 hash, bytes.length⟩ bytes] →
            a = bytes := by
          intro a ha
          obtain ⟨reference, hmem⟩ := mem_contents.mp ha
          rw [List.mem_singleton] at hmem
          cases hmem
          rfl
        apply @Wrote.emit _ _ _ _ _ _ _ (.blob ⟨.hash256 hash, bytes.length⟩ bytes) h rfl
        · intro hmissing
          exact ⟨hmissing, by rw [hhash], by omega⟩
        · intro a ha
          rw [hcontents a ha, hhash]
          exact ⟨hnew, by simp⟩
        · intro a ha b hb
          rw [hcontents a ha, hcontents b hb]
        · exact hinserted
        · rfl

lemma Wrote.exportBlobs {done : List Bytes} {key : RecordKey} {hashes : List Digest}
    (h : Wrote done e)
    (hexec : (forM hashes (Exporter.exportBlob log snapshot key)).exec e = (.ok (), e')) :
    Wrote done e' := by
  induction hashes generalizing e with
  | nil =>
    cases hexec
    exact h
  | cons hash hashes ih =>
    rw [List.forM_cons] at hexec
    obtain ⟨_, e₁, hone, hexec⟩ := exec_bind_eq_ok.mp hexec
    exact ih (h.exportBlob hone) hexec

/-- One record with its content. -/
lemma Wrote.exportKey {done : List Bytes} {key : RecordKey} (h : Wrote done e)
    (hexec : (exportKey log snapshot key).exec e = (.ok (), e')) :
    Wrote (done ++ (snapshot.record key).toList) e' := by
  unfold Exporter.exportKey at hexec
  cases hrecord : snapshot.record key with
  | none =>
    rw [hrecord] at hexec
    cases hexec
  | some encoded =>
    rw [hrecord] at hexec
    dsimp only at hexec
    obtain ⟨_, e₁, hemit, hexec⟩ := exec_bind_eq_ok.mp hexec
    cases hemit
    obtain ⟨hashes, e₂, hhashes, hexec⟩ := exec_bind_eq_ok.mp hexec
    obtain ⟨replica, -, rfl⟩ := exec_onReplica_eq_ok hhashes
    apply Wrote.exportBlobs _ hexec
    obtain ⟨body, hbody, hops, hall, hexported, hdistinct⟩ := h.emitted
    have hkey := snapshot.derived key encoded hrecord
    have hcontents : contents (body ++ [.operation encoded]) = contents body := by
      rw [contents_append]
      exact List.append_nil _
    refine ⟨body ++ [.operation encoded], ?_, ?_, fun hmissing other hother => ?_, ?_, ?_⟩
    · show e.emitted ++ [_] = _
      rw [hbody]
      rfl
    · rw [operations_append, hops]
      rfl
    · rcases List.mem_append.mp hother with hold | hlast
      · exact hall hmissing other hold
      · rw [List.mem_singleton] at hlast
        rw [hlast]
        obtain ⟨op, hop⟩ := decodeOp_of_fromEncoded hkey
        exact ⟨RecordKey.length_of_fromEncoded hkey, Schema.id op, op, hop, rfl⟩
    · rw [hcontents]
      exact hexported
    · rw [hcontents]
      exact hdistinct

lemma Wrote.exportKeys {done : List Bytes} {keys : List RecordKey} (h : Wrote done e)
    (hexec : (forM keys (Exporter.exportKey log snapshot)).exec e = (.ok (), e')) :
    Wrote (done ++ keys.filterMap snapshot.record) e' := by
  induction keys generalizing e done with
  | nil =>
    cases hexec
    rw [List.filterMap_nil, List.append_nil]
    exact h
  | cons key keys ih =>
    rw [List.forM_cons] at hexec
    obtain ⟨_, e₁, hone, hexec⟩ := exec_bind_eq_ok.mp hexec
    have hrest := ih (h.exportKey hone) hexec
    rw [List.append_assoc] at hrest
    have hcons : (snapshot.record key).toList ++ keys.filterMap snapshot.record
        = (key :: keys).filterMap snapshot.record := by
      rw [List.filterMap_cons]
      cases snapshot.record key <;> rfl
    rw [hcons] at hrest
    exact hrest

/-- All pages together are all keys. -/
lemma Wrote.exportPages {fuel : ℕ} {done rest : List RecordKey}
    (hkeys : snapshot.records.keys = done ++ rest) (hfuel : rest.length < fuel)
    (h : Wrote (done.filterMap snapshot.record) e)
    (hexec : (exportPages log snapshot fuel done.getLast?).exec e = (.ok (), e')) :
    Wrote (snapshot.records.keys.filterMap snapshot.record) e' := by
  induction fuel generalizing done rest e with
  | zero => omega
  | succ fuel ih =>
    rw [Exporter.exportPages, snapshotPage_eq hkeys] at hexec
    dsimp only at hexec
    obtain ⟨_, e₁, hpage, hexec⟩ := exec_bind_eq_ok.mp hexec
    have hwrote := h.exportKeys hpage
    rw [← List.filterMap_append] at hwrote
    have hsplit : snapshot.records.keys
        = (done ++ rest.take inventoryPage) ++ rest.drop inventoryPage := by
      rw [hkeys, List.append_assoc, List.take_append_drop]
    cases hmore : (rest.drop inventoryPage).isEmpty with
    | true =>
      rw [hmore] at hexec
      cases hexec
      rw [List.isEmpty_iff] at hmore
      rw [hmore, List.append_nil] at hsplit
      rw [hsplit]
      exact hwrote
    | false =>
      rw [hmore] at hexec
      have hlong : inventoryPage < rest.length := by
        by_contra hshort
        rw [List.drop_eq_nil_of_le (by omega)] at hmore
        cases hmore
      have hpos : 0 < inventoryPage := by
        unfold inventoryPage
        omega
      have hcursor : (rest.take inventoryPage).getLast?
          = (done ++ rest.take inventoryPage).getLast? := by
        rw [List.getLast?_append]
        have hsome : (rest.take inventoryPage).getLast? ≠ none := by
          rw [ne_eq, List.getLast?_eq_none_iff]
          intro hnil
          have hlength := congrArg List.length hnil
          rw [List.length_take, List.length_nil] at hlength
          omega
        obtain ⟨last, hlast⟩ := Option.ne_none_iff_exists'.mp hsome
        rw [hlast]
        rfl
      apply ih hsplit _ hwrote
      · rw [← hcursor]
        exact hexec
      · rw [List.length_drop]
        omega

/-- What a successful export writes. -/
structure Exports (chain : CanonicalChain Op) (entries : List Entry) : Prop where
  written : ∃ body, entries = .header 1 :: body ++ [.summary chain.stats]
    ∧ (∀ entry ∈ body, entry.Valid)
    ∧ ∀ a ∈ contents body, ∀ b ∈ contents body, Blake3.hash a = Blake3.hash b → a = b
  complete : ∀ bytes, bytes ∈ operations entries ↔ ∃ id, (id, bytes) ∈ chain.evidence.pairs
  counted : (operations entries).length = chain.evidence.pairs.card
  undecodable : chain.stats.undecodable = 0
  tails : chain.stats.incompleteTails = 0

omit [ContentSchema Op] in
/-- The records of a snapshot, as often as the evidence has them. -/
lemma records_of_insertAll {chain : CanonicalChain Op} (hbalanced : chain.Balanced)
    (h : (insertAll (chain.evidence.evidenceList.map Prod.snd)).exec .empty = (.ok (), snapshot)) :
    (∀ bytes, bytes ∈ snapshot.records.keys.filterMap snapshot.record
        ↔ ∃ id, (id, bytes) ∈ chain.evidence.pairs)
      ∧ (snapshot.records.keys.filterMap snapshot.record).length = chain.evidence.pairs.card := by
  have hmem : ∀ bytes, bytes ∈ snapshot.records.keys.filterMap snapshot.record
      ↔ ∃ id, (id, bytes) ∈ chain.evidence.pairs := by
    intro bytes
    rw [List.mem_filterMap]
    constructor
    · intro hcase
      obtain ⟨key, -, hrecord⟩ := hcase
      rcases (record_insertAll h key bytes).mp hrecord with hempty | ⟨hin, -⟩
      · simp [Snapshot.record, Snapshot.empty] at hempty
      · obtain ⟨⟨id, found⟩, hpair, rfl⟩ := List.mem_map.mp hin
        exact ⟨id, List.mem_toFinset.mpr hpair⟩
    · intro hcase
      obtain ⟨id, hpair⟩ := hcase
      have hin : bytes ∈ chain.evidence.evidenceList.map Prod.snd :=
        List.mem_map.mpr ⟨(id, bytes), List.mem_toFinset.mp hpair, rfl⟩
      obtain ⟨key, hkey⟩ := derived_insertAll h hin
      have hrecord := (record_insertAll h key bytes).mpr (.inr ⟨hin, hkey⟩)
      refine ⟨key, ?_, hrecord⟩
      rw [ExtTreeMap.mem_keys, ExtTreeMap.mem_iff_isSome_getElem?]
      exact Option.isSome_of_eq_some hrecord
  refine ⟨hmem, ?_⟩
  -- a key has one record, and a record has one key
  have hnodup : (snapshot.records.keys.filterMap snapshot.record).Nodup := by
    apply ExtTreeMap.nodup_keys.filterMap
    intro a b bytes ha hb
    have hleft := snapshot.derived a bytes ha
    rw [snapshot.derived b bytes hb] at hleft
    exact (Except.ok.inj hleft).symm
  have hbytes : (chain.evidence.evidenceList.map Prod.snd).Nodup := by
    apply List.Nodup.map_on _ (OpSet.nodup_evidenceList _)
    intro x hx y hy hsame
    have hxd := hbalanced.decodes x.1 x.2 (List.mem_toFinset.mpr hx)
    have hyd := hbalanced.decodes y.1 y.2 (List.mem_toFinset.mpr hy)
    rw [hsame] at hxd
    exact Prod.ext (hxd.eq hyd) hsame
  rw [OpSet.card_pairs, ← List.length_map (f := Prod.snd),
    ← List.toFinset_card_of_nodup hnodup, ← List.toFinset_card_of_nodup hbytes]
  congr 1
  ext bytes
  rw [List.mem_toFinset, List.mem_toFinset, hmem, List.mem_map]
  constructor
  · intro hcase
    obtain ⟨id, hpair⟩ := hcase
    exact ⟨(id, bytes), List.mem_toFinset.mp hpair, rfl⟩
  · intro hcase
    obtain ⟨⟨id, found⟩, hpair, rfl⟩ := hcase
    exact ⟨id, List.mem_toFinset.mpr hpair⟩

/-- A successful export is a whole archive of the chain. -/
lemma exports_of_ok {chain : CanonicalChain Op} (hbalanced : chain.Balanced)
    {source : StoreReplica L BlobFiles ExportScope}
    (h : (exportChain log chain).exec { replica := source } = (.ok (), e)) :
    Exports chain e.emitted := by
  unfold exportChain at h
  generalize hinsert : (insertAll (chain.evidence.evidenceList.map Prod.snd)).exec .empty
    = inserted at h
  obtain ⟨result, snapshot⟩ := inserted
  dsimp only at h
  obtain ⟨_, e₁, hresult, hrun⟩ := exec_bind_eq_ok.mp h
  obtain ⟨hok, rfl⟩ := Prod.mk.inj (exec_io_eq_ok hresult)
  rw [show result = .ok () from hok] at hinsert
  clear h
  obtain ⟨_, e₂, hheader, h⟩ := exec_bind_eq_ok.mp hrun
  cases hheader
  obtain ⟨_, e₃, hpages, h⟩ := exec_bind_eq_ok.mp h
  obtain ⟨_, e₄, hsummary, h⟩ := exec_bind_eq_ok.mp h
  cases hsummary
  rw [exec_guard] at h
  split at h
  · cases h
  · next hclean =>
    rw [exec_bind_of_ok (exec_get _)] at h
    dsimp only at h
    have hstart : Wrote ([].filterMap snapshot.record) (Exporter.mk source [.header 1] ∅ false) :=
      ⟨[], rfl, rfl, fun _ => by simp, by simp [contents], by simp [contents]⟩
    have hwrote := @Wrote.exportPages _ _ _ _ _ log snapshot _ _ _ [] snapshot.records.keys rfl
      (by rw [ExtTreeMap.length_keys]; exact Nat.lt_succ_self _) hstart hpages
    obtain ⟨body, hbody, hops, hvalid, -, hdistinct⟩ := hwrote.emitted
    obtain ⟨hmem, hlength⟩ := records_of_insertAll hbalanced hinsert
    cases hmissing : e₃.missing with
    | true =>
      rw [hmissing] at h
      cases h
    | false =>
      rw [hmissing] at h
      cases h
      have hentries : e₃.emitted ++ [.summary chain.stats]
          = .header 1 :: body ++ [.summary chain.stats] := by rw [hbody]
      have hoperations : operations (e₃.emitted ++ [.summary chain.stats])
          = snapshot.records.keys.filterMap snapshot.record := by
        rw [hentries, operations_append, ← hops]
        exact List.append_nil _
      refine ⟨⟨body, hentries, hvalid hmissing, hdistinct⟩, fun bytes => ?_, ?_, by omega, by omega⟩
      · rw [hoperations]
        exact hmem bytes
      · rw [hoperations]
        exact hlength

end Exporter
end EditChain.Cli
