import EditChain.Cli.ExportTheorems
import EditChain.Store.PowerLossTheorems

/-!
# Archives restore exactly

What a successful export wrote can be restored into any chain that can be written, as a whole or in
part and then as a whole: the chain then has what it had, and the records and content of the
exported one.
-/

namespace EditChain.Cli

open Core Fallible Store Sync
open Std (ExtTreeMap ExtTreeSet)

variable {Op : Type} [Schema Op] [Blake3] [Checksum] [ContentSchema Op]

namespace Restorer

variable {L M : Type} {log : AppendLog L} {sourceLog : AppendLog M} {files : BlobFiles}

omit [Blake3] [Checksum] in
/-- The parts of an archive without its summary. -/
lemma part_cases {entries body : List Entry} {last : Entry}
    (h : entries = .header 1 :: body ++ [last]) {part : List Entry} (hpart : part <+: entries)
    (hproper : part ≠ entries) : part = [] ∨ ∃ some rest, part = .header 1 :: some
      ∧ body = some ++ rest := by
  obtain ⟨left, hleft⟩ := hpart
  cases part with
  | nil => exact .inl rfl
  | cons first some =>
    right
    rw [h] at hleft
    obtain ⟨rfl, hrest⟩ := List.cons.inj hleft
    have htail : some ++ left = body ++ [last] := hrest
    clear hrest hleft
    -- the last entry is among those that are left
    rcases List.eq_nil_or_concat left with rfl | ⟨rest, final, rfl⟩
    · rw [List.append_nil] at htail
      rw [h, htail] at hproper
      exact absurd rfl hproper
    · rw [List.concat_eq_append, ← List.append_assoc] at htail
      obtain ⟨hbody, -⟩ := List.append_inj' htail rfl
      exact ⟨some, rest, rfl, hbody.symm⟩

omit [Checksum] [ContentSchema Op] in
/-- What is stored of a whole archive is the union of both chains. -/
lemma Stored.evidence_eq {law : Lawful log} {chain : CanonicalChain Op} (hbalanced : chain.Balanced)
    {entries : List Entry} (hexports : Exporter.Exports chain entries) {ops blobs : List Bytes}
    (hops : ∀ bytes, bytes ∈ ops ↔ bytes ∈ operations entries)
    {start : Finset (OpId × Bytes)} {r : Restorer L} (h : Stored law start files ops blobs r) :
    evidence law r.store.log = start ∪ chain.evidence.pairs := by
  ext ⟨id, bytes⟩
  rw [h.records, Finset.mem_union, hops, hexports.complete]
  apply or_congr_right
  constructor
  · intro hcase
    obtain ⟨⟨other, hpair⟩, hdecodes⟩ := hcase
    rw [hdecodes.eq (hbalanced.decodes other bytes hpair)]
    exact hpair
  · intro hpair
    exact ⟨⟨id, hpair⟩, hbalanced.decodes id bytes hpair⟩

/-- How a restore of a whole archive ends: it has stored these records and this content and reports
nothing but conflicts, unless a call of the log failed. -/
def Ends (law : Lawful log) (l : L) (pairs : Finset (OpId × Bytes)) (final : BlobFiles)
    (result : Except Failure Unit) (r : Restorer L) : Prop :=
  Stopped log l result r ∨ (result = .ok () ∨ result = .error .conflict)
    ∧ evidence law r.store.log = pairs ∧ r.files = final

/-- An archive that was exported is restored exactly: as a whole, and as a whole after any part of
it, which itself never reports success. If a call of the log fails, the restore ends with its error,
and can be repeated. -/
theorem archives_restore_exactly {d : Directory} {chain : CanonicalChain Op}
    (hread : CanonicalChain.read d = .ok chain) {source : StoreReplica M BlobFiles ExportScope}
    {e : Exporter M}
    (hexport : (Exporter.exportChain sourceLog chain).exec { replica := source } = (.ok (), e))
    (law : Lawful log) (l : L) (files : BlobFiles)
    (hnamed : ∀ (hash : Digest) bytes, files[hash]? = some bytes → Blake3.hash bytes = hash)
    (hcollision : ∀ a ∈ contents e.emitted, ∀ (hash : Digest) b, files[hash]? = some b →
      Blake3.hash b = Blake3.hash a → b = a) :
    chain.stats.accepted + chain.stats.quarantined = (operations e.emitted).length
      ∧ ∃ final : BlobFiles,
        (∀ (hash : Digest) bytes, final[hash]? = some bytes ↔ files[hash]? = some bytes
          ∨ (bytes ∈ contents e.emitted ∧ Blake3.hash bytes = hash))
        ∧ (∃ result r, (restore log e.emitted).exec (begin l files) = (result, r)
          ∧ Ends law l (evidence law l ∪ chain.evidence.pairs) final result r)
        ∧ ∀ part, part <+: e.emitted →
          ∃ result r, (restore log part).exec (begin l files) = (result, r)
            ∧ (part ≠ e.emitted → result ≠ .ok ())
            ∧ evidence law l ⊆ evidence law r.store.log
            ∧ evidence law r.store.log ⊆ evidence law l ∪ chain.evidence.pairs
            ∧ (∀ (hash : Digest) bytes, files[hash]? = some bytes → r.files[hash]? = some bytes)
            ∧ (∀ (hash : Digest) bytes, r.files[hash]? = some bytes → files[hash]? = some bytes
              ∨ (bytes ∈ contents e.emitted ∧ Blake3.hash bytes = hash))
            ∧ ∃ again r', (restore log e.emitted).exec (begin r.store.log r.files) = (again, r')
              ∧ Ends law r.store.log (evidence law l ∪ chain.evidence.pairs) final again r' := by
  have hbalanced := CanonicalChain.balanced_of_read hread
  have hexports := Exporter.exports_of_ok hbalanced hexport
  obtain ⟨body, hentries, hvalid, hdistinct⟩ := hexports.written
  have hops : operations e.emitted = operations body := by
    rw [hentries, operations_append]
    exact List.append_nil _
  have hcontents : contents e.emitted = contents body := by
    rw [hentries, contents_append]
    exact List.append_nil _
  have hcount : chain.stats.accepted + chain.stats.quarantined = (operations e.emitted).length := by
    rw [hexports.counted, ← hbalanced.counted, Nat.add_comm]
    rfl
  have hapart : BlobFiles.Apart files (contents body) := by
    refine ⟨hdistinct, fun a ha b hb => ?_⟩
    rw [← hcontents] at ha
    exact hcollision a ha _ b hb (hnamed _ b hb)
  obtain ⟨final, -, hfinal⟩ := BlobFiles.putBatch_spec hapart fun b hb => valid_content hvalid hb
  -- a restore of everything ends well wherever it begins
  have hends : ∀ r : Restorer L,
      Held law (evidence law l) files (operations body) (contents body) r →
      ∃ result r', (restore log e.emitted).exec (begin r.store.log r.files) = (result, r')
        ∧ Ends law r.store.log (evidence law l ∪ chain.evidence.pairs) final result r' := by
    intro r hheld
    obtain ⟨result, r', hrestore, hdone⟩ := hheld.restored law hvalid hapart
      (by rw [hcount, hops]) hexports.undecodable hexports.tails
    rw [← hentries] at hrestore
    refine ⟨result, r', hrestore, hdone.imp_right fun hstored => ⟨hstored.1,
      hstored.2.evidence_eq hbalanced hexports (fun bytes => by rw [hops]), ?_⟩⟩
    apply ExtTreeMap.ext_getElem?
    intro hash
    apply Option.ext
    intro bytes
    rw [hstored.2.files hash bytes, hfinal hash bytes]
  refine ⟨hcount, final, ?_, hends (begin l files) (held_begin law l files _ _),
    fun part hpart => ?_⟩
  · rw [hcontents]
    exact hfinal
  -- whatever part it is, it adds records and content of the archive
  have hpart' : ∃ result r, (restore log part).exec (begin l files) = (result, r)
      ∧ (part ≠ e.emitted → result ≠ .ok ())
      ∧ Held law (evidence law l) files (operations body) (contents body) r := by
    by_cases hwhole : part = e.emitted
    · obtain ⟨result, r, hrestore, hheld, -⟩ := restore_whole law hvalid l hapart
        (by rw [hcount, hops]) hexports.undecodable hexports.tails
      rw [← hentries, ← hwhole] at hrestore
      exact ⟨result, r, hrestore, fun hproper => absurd hwhole hproper, hheld⟩
    · rcases part_cases hentries hpart hwhole with rfl | ⟨some, rest, rfl, hsplit⟩
      · obtain ⟨failure, r, hrestore, -, hheld⟩ := restore_nil law l files
        exact ⟨.error failure, r, hrestore, fun _ => nofun, hheld.mono nofun nofun⟩
      · have hsome : ∀ entry ∈ some, entry.Valid := by
          intro entry hentry
          apply hvalid
          rw [hsplit]
          exact List.mem_append_left _ hentry
        have hfirst : ∀ b ∈ contents some, b ∈ contents body := by
          intro b hb
          rw [hsplit, contents_append]
          exact List.mem_append_left _ hb
        obtain ⟨failure, r, hrestore, -, hheld⟩ :=
          restore_part law hsome l (hapart.sublist hfirst)
        refine ⟨.error failure, r, hrestore, fun _ => nofun, hheld.mono (fun b hb => ?_) hfirst⟩
        rw [hsplit, operations_append]
        exact List.mem_append_left _ hb
  obtain ⟨result, r, hrestore, hproper, hheld⟩ := hpart'
  refine ⟨result, r, hrestore, hproper, hheld.kept, fun pair hpair => ?_, hheld.stays, ?_,
    hends r hheld⟩
  · obtain ⟨id, bytes⟩ := pair
    rcases hheld.records id bytes hpair with hold | ⟨hin, hdecodes⟩
    · exact Finset.mem_union_left _ hold
    · rw [← hops] at hin
      obtain ⟨other, hother⟩ := (hexports.complete bytes).mp hin
      rw [hdecodes.eq (hbalanced.decodes other bytes hother)]
      exact Finset.mem_union_right _ hother
  · rw [hcontents]
    exact hheld.blobs

end Restorer
end EditChain.Cli

namespace EditChain.Cli

open Core Fallible Store Sync
open Std (ExtTreeMap)

/-! ## An archive of two messages -/

/-- A number that is computed before it is used. -/
def computed {α : Type} : ℕ → (ℕ → α) → α
  | 0, f => f 0
  | n + 1, f => f (n + 1)

lemma computed_eq {α : Type} (n : ℕ) (f : ℕ → α) : computed n f = f n := by
  cases n <;> rfl

/-- The CRC-32C register after some bytes, one byte after the other. -/
def registerAfter : UInt32 → Bytes → UInt32
  | register, [] => register
  | register, b :: rest =>
    computed (Nat.repeat crcBit 8 (register ^^^ b.toUInt32)).toNat fun n =>
      registerAfter (UInt32.ofNat n) rest

lemma registerAfter_eq (register : UInt32) (bytes : Bytes) :
    registerAfter register bytes = bytes.foldl
      (fun register b => Nat.repeat crcBit 8 (register ^^^ b.toUInt32)) register := by
  induction bytes generalizing register with
  | nil => rfl
  | cons b rest ih =>
    rw [registerAfter, computed_eq, UInt32.ofNat_toNat, ih]
    rfl

/-- CRC-32C in a form that evaluates on longer inputs. -/
@[reducible] def computedChecksum : Checksum :=
  ⟨fun bytes => registerAfter 0xFFFFFFFF bytes ^^^ 0xFFFFFFFF⟩

lemma computedChecksum_eq : computedChecksum = crc32cChecksum := by
  unfold computedChecksum crc32cChecksum crc32c
  simp only [registerAfter_eq]

section Messages

variable [Checksum]

local instance archiveSchema : Schema OpId := messageSchema
local instance archiveDigests : Blake3 := contentDigests
local instance archiveContent : ContentSchema OpId := greetingContent

/-- A new chain, in a file system without failures. -/
def freshMounted : Mounted where
  writer := Site.newWriter
  stable _ := 0
  schedule := {}
  good := Site.newWriter_good
  within := Site.newWriter_within

/-- The same chain with some records. -/
def written (records : List Bytes) : Mounted :=
  ((LogStore.appendEncodedBatch Mounted.log records).exec (LogStore.new freshMounted)).2.log

/-- The chain that is exported: a variant of the message, and another one. -/
def exportedMounted : Mounted := written [messageV3, messageAt 9]

/-- The replica of that chain, with the greeting. -/
def exportedSource : StoreReplica Mounted BlobFiles ExportScope :=
  .new exportedMounted (ExtTreeMap.empty.insert (Blake3.hash greeting) greeting)
    ⟨"chain", none, none⟩

/-- A chain with the message, and content of its own. -/
def occupiedMounted : Mounted := written [messageV1]

def occupiedFiles : BlobFiles := ExtTreeMap.empty.insert 1 [1]

omit [Checksum] in
lemma getElem?_occupiedFiles {hash : Digest} {bytes : Bytes}
    (h : occupiedFiles[hash]? = some bytes) : hash = 1 ∧ bytes = [1] := by
  unfold occupiedFiles at h
  rw [ExtTreeMap.getElem?_insert] at h
  split at h
  · next hsame =>
    rw [Std.compare_eq_iff_eq] at hsame
    exact ⟨hsame.symm, (Option.some.inj h).symm⟩
  · simp at h

/-- The export of that chain and its restore, both with their results. -/
def transfer : Except IoError ((Except Failure Unit × Exporter Mounted)
    × (Except Failure Unit × Restorer Mounted)) := do
  let chain ← CanonicalChain.read (SegmentStore.close exportedMounted.writer)
  let exported := (Exporter.exportChain Mounted.log chain).exec { replica := exportedSource }
  return (exported, (Restorer.restore Mounted.log exported.2.emitted).exec
    (Restorer.begin occupiedMounted occupiedFiles))

end Messages

section Messages

local instance restoredSchema : Schema OpId := messageSchema
local instance restoredDigests : Blake3 := contentDigests
local instance restoredContent : ContentSchema OpId := greetingContent
local instance restoredChecksum : Checksum := crc32cChecksum

/-- The archive of two messages and the greeting is restored into a chain that has another variant
of one of them, and content of its own. -/
theorem Restorer.archives_restore_message :
    ∃ (chain : CanonicalChain OpId) (e : Exporter Mounted) (r : Restorer Mounted),
      CanonicalChain.read (SegmentStore.close exportedMounted.writer) = .ok chain
        ∧ (Exporter.exportChain Mounted.log chain).exec { replica := exportedSource } = (.ok (), e)
        ∧ (operations e.emitted).length = 2 ∧ contents e.emitted = [greeting]
        ∧ (restore Mounted.log e.emitted).exec (begin occupiedMounted occupiedFiles)
          = (.error .conflict, r)
        ∧ evidence Mounted.lawful r.store.log
          = evidence Mounted.lawful occupiedMounted ∪ chain.evidence.pairs
        ∧ r.files[Blake3.hash greeting]? = some greeting ∧ r.files[(1 : Digest)]? = some [1] := by
  have hruns : (transfer.map fun outcome =>
      decide (outcome.1.1 = .ok ()) && decide ((operations outcome.1.2.emitted).length = 2)
        && decide (contents outcome.1.2.emitted = [greeting])
        && decide (outcome.2.1 = .error .conflict) && outcome.2.2.store.evidence.isSome)
      = .ok true := by
    have hchecksum : restoredChecksum = computedChecksum := computedChecksum_eq.symm
    rw [hchecksum]
    decide +kernel
  cases hread : CanonicalChain.read (SegmentStore.close exportedMounted.writer) with
  | error error =>
    unfold transfer at hruns
    rw [hread] at hruns
    cases hruns
  | ok chain =>
    unfold transfer at hruns
    rw [hread] at hruns
    have hall := Except.ok.inj hruns
    simp only [Bool.and_eq_true, decide_eq_true_eq] at hall
    obtain ⟨⟨⟨⟨hok, hcount⟩, hcontents⟩, hconflict⟩, hcached⟩ := hall
    generalize hexport : (Exporter.exportChain Mounted.log chain).exec
      { replica := exportedSource } = exported at hok hcount hcontents hconflict hcached
    obtain ⟨result, e⟩ := exported
    dsimp only at hok hcount hcontents hconflict hcached
    generalize hrestore : (restore Mounted.log e.emitted).exec
      (begin occupiedMounted occupiedFiles) = restored at hconflict hcached
    obtain ⟨outcome, r⟩ := restored
    dsimp only at hconflict hcached
    subst hok hconflict
    obtain ⟨-, final, hfinal, ⟨again, r', hagain, hends⟩, -⟩ := archives_restore_exactly hread
      hexport Mounted.lawful occupiedMounted occupiedFiles
      (fun hash bytes hsome => by
        obtain ⟨rfl, rfl⟩ := getElem?_occupiedFiles hsome
        decide)
      (fun a ha hash b hsome hsame => by
        obtain ⟨rfl, rfl⟩ := getElem?_occupiedFiles hsome
        rw [hcontents, List.mem_singleton] at ha
        subst ha
        exact absurd hsame (by decide))
    obtain ⟨rfl, rfl⟩ : _ = again ∧ r = r' := Prod.mk.inj (hrestore.symm.trans hagain)
    rcases hends with ⟨error, -, -, hdropped⟩ | ⟨-, hevidence, hfiles⟩
    · rw [hdropped] at hcached
      cases hcached
    · refine ⟨chain, e, r, rfl, hexport, hcount, hcontents, hrestore, hevidence, ?_, ?_⟩
      · rw [hfiles, hfinal]
        exact .inr ⟨by rw [hcontents]; exact List.mem_singleton_self _, rfl⟩
      · rw [hfiles, hfinal]
        exact .inl (by unfold occupiedFiles; rw [ExtTreeMap.getElem?_insert_self])

end Messages
end EditChain.Cli
