import EditChain.Migration.RunTheorems
import EditChain.Migration.Transform

/-!
# What equal digests say

The hasher is fed the flags, the length and the bytes of one record after the other. Such a stream
is a stream of one list of records only, so the digests of two chains agree, unless the hash
collides, exactly when one holds what the other converts to.
-/

namespace EditChain.Migration

open Fallible Store Disk

/-- The bytes that a hasher is fed for some records. -/
def recordStream (records : List Record) : Except IoError Bytes := do
  let parts ← records.mapM hashRecord
  return parts.flatten

lemma recordStream_nil : recordStream [] = .ok [] := rfl

lemma recordStream_cons_eq_ok {record : Record} {rest : List Record} {stream : Bytes} :
    recordStream (record :: rest) = .ok stream
      ↔ ∃ part tail, hashRecord record = .ok part ∧ recordStream rest = .ok tail
        ∧ stream = part ++ tail := by
  unfold recordStream
  rw [List.mapM_cons]
  constructor
  · intro h
    obtain ⟨parts, hparts, hstream⟩ := bind_eq_ok.mp h
    obtain ⟨part, hpart, hparts⟩ := bind_eq_ok.mp hparts
    obtain ⟨tails, htails, hparts⟩ := bind_eq_ok.mp hparts
    refine ⟨part, tails.flatten, hpart, ?_, ?_⟩
    · rw [htails]
      rfl
    · rw [← pure_eq_ok.mp hstream, ← pure_eq_ok.mp hparts, List.flatten_cons]
  · intro ⟨part, tail, hpart, htail, hstream⟩
    obtain ⟨tails, htails, htail⟩ := bind_eq_ok.mp htail
    rw [hpart, htails, hstream, ← pure_eq_ok.mp htail]
    rfl

lemma recordStream_append_eq_ok {records rest : List Record} {stream : Bytes} :
    recordStream (records ++ rest) = .ok stream
      ↔ ∃ first second, recordStream records = .ok first ∧ recordStream rest = .ok second
        ∧ stream = first ++ second := by
  induction records generalizing stream with
  | nil =>
    constructor
    · intro h
      exact ⟨[], stream, recordStream_nil, h, rfl⟩
    · intro ⟨first, second, hfirst, hsecond, hstream⟩
      rw [recordStream_nil] at hfirst
      cases hfirst
      rwa [hstream]
  | cons record records ih =>
    rw [List.cons_append, recordStream_cons_eq_ok]
    constructor
    · intro ⟨part, tail, hpart, htail, hstream⟩
      obtain ⟨first, second, hfirst, hsecond, hboth⟩ := ih.mp htail
      refine ⟨part ++ first, second, ?_, hsecond, ?_⟩
      · exact recordStream_cons_eq_ok.mpr ⟨part, first, hpart, hfirst, rfl⟩
      · rw [hstream, hboth, List.append_assoc]
    · intro ⟨first, second, hfirst, hsecond, hstream⟩
      obtain ⟨part, tail, hpart, htail, hboth⟩ := recordStream_cons_eq_ok.mp hfirst
      refine ⟨part, tail ++ second, hpart, ih.mpr ⟨tail, second, htail, hsecond, rfl⟩, ?_⟩
      rw [hstream, hboth, List.append_assoc]

/-- A stream says which records it was made of. -/
lemma recordStream_injective {records records' : List Record} {stream : Bytes}
    (h : recordStream records = .ok stream) (h' : recordStream records' = .ok stream) :
    records = records' := by
  obtain ⟨parts, hparts, hstream⟩ := bind_eq_ok.mp h
  obtain ⟨parts', hparts', hstream'⟩ := bind_eq_ok.mp h'
  have hsame : parts.flatten = parts'.flatten := by
    rw [pure_eq_ok.mp hstream, pure_eq_ok.mp hstream']
  exact eq_of_streams hparts hparts' hsame

/-! ## Converters -/

namespace RecordTransform

variable {τ : Type} (transform : RecordTransform τ)

/-- The records that some records are converted to, each with the flags of its source. -/
def convertAll : List Record → Fallible IoError τ (List Record)
  | [] => return []
  | record :: rest => do
    let outputs ← transform.convert record.data
    let converted ← convertAll rest
    return outputs.map (⟨record.flags, ·⟩) ++ converted

/-- The hasher is fed the stream of the outputs. -/
lemma hashOutputs_eq_ok {flags : UInt8} {outputs : List Bytes} {hasher fed : Bytes} :
    hashOutputs flags outputs hasher = .ok fed
      ↔ ∃ stream, recordStream (outputs.map (⟨flags, ·⟩)) = .ok stream
        ∧ fed = hasher ++ stream := by
  induction outputs generalizing hasher with
  | nil =>
    constructor
    · intro h
      cases h
      exact ⟨[], recordStream_nil, (List.append_nil _).symm⟩
    · intro ⟨stream, hstream, hfed⟩
      rw [List.map_nil, recordStream_nil] at hstream
      cases hstream
      rw [hfed, List.append_nil]
      rfl
  | cons bytes rest ih =>
    rw [List.map_cons]
    constructor
    · intro h
      obtain ⟨part, hpart, h⟩ := bind_eq_ok.mp h
      obtain ⟨tail, htail, hfed⟩ := ih.mp h
      refine ⟨part ++ tail, recordStream_cons_eq_ok.mpr ⟨part, tail, hpart, htail, rfl⟩, ?_⟩
      rw [hfed, List.append_assoc]
    · intro ⟨stream, hstream, hfed⟩
      obtain ⟨part, tail, hpart, htail, rfl⟩ := recordStream_cons_eq_ok.mp hstream
      refine bind_eq_ok.mpr ⟨part, hpart, ih.mpr ⟨tail, htail, ?_⟩⟩
      rw [hfed, List.append_assoc]

/-- The visitor feeds the hasher the stream of the converted records; the disk sees one look for a
cancellation at every record. -/
lemma hashConverted_eq_ok {records : List Record} {hasher fed : Bytes} {s t : Disk × τ} :
    (transform.hashConverted records hasher).exec s = (.ok fed, t)
      ↔ (checkCancels records).exec s.1 = (.ok (), t.1)
        ∧ ∃ converted stream, (transform.convertAll records).exec s.2 = (.ok converted, t.2)
          ∧ recordStream converted = .ok stream ∧ fed = hasher ++ stream := by
  obtain ⟨disk, state⟩ := s
  induction records generalizing hasher disk state with
  | nil =>
    constructor
    · intro h
      cases h
      exact ⟨rfl, [], [], rfl, recordStream_nil, (List.append_nil _).symm⟩
    · intro ⟨hcancels, converted, stream, hconverted, hstream, hfed⟩
      obtain ⟨disk', state'⟩ := t
      cases hcancels
      cases hconverted
      rw [recordStream_nil] at hstream
      cases hstream
      rw [hfed, List.append_nil]
      rfl
  | cons record rest ih =>
    constructor
    · intro h
      obtain ⟨_, u, hcancel, h⟩ := exec_bind_eq_ok.mp h
      obtain ⟨outputs, v, hconvert, h⟩ := exec_bind_eq_ok.mp h
      obtain ⟨next, w, hnext, h⟩ := exec_bind_eq_ok.mp h
      rw [exec_zoom, Prod.mk.injEq] at hcancel hconvert
      rw [exec_lift, Prod.mk.injEq] at hnext
      obtain ⟨hcancel, rfl⟩ := hcancel
      obtain ⟨hconvert, rfl⟩ := hconvert
      obtain ⟨hnext, rfl⟩ := hnext
      obtain ⟨hcancels, converted, stream, hconverted, hstream, hfed⟩ := ih _ _ |>.mp h
      obtain ⟨first, hfirst, rfl⟩ := hashOutputs_eq_ok.mp hnext
      refine ⟨?_, outputs.map (⟨record.flags, ·⟩) ++ converted, first ++ stream, ?_, ?_, ?_⟩
      · exact exec_bind_eq_ok.mpr ⟨(), _, Prod.ext hcancel rfl, hcancels⟩
      · exact exec_bind_eq_ok.mpr ⟨outputs, _, Prod.ext hconvert rfl,
          exec_bind_eq_ok.mpr ⟨converted, _, hconverted, rfl⟩⟩
      · exact recordStream_append_eq_ok.mpr ⟨first, stream, hfirst, hstream, rfl⟩
      · rw [hfed, List.append_assoc]
    · intro ⟨hcancels, converted, stream, hconverted, hstream, hfed⟩
      have hboth : (checkCancel >>= fun _ => checkCancels rest).exec disk = (.ok (), t.1) :=
        hcancels
      obtain ⟨⟨⟩, disk', hcancel, hrest⟩ := exec_bind_eq_ok.mp hboth
      obtain ⟨outputs, state', hconvert, hconverted⟩ := exec_bind_eq_ok.mp hconverted
      obtain ⟨others, state'', hothers, hconverted⟩ := exec_bind_eq_ok.mp hconverted
      rw [exec_pure, Prod.mk.injEq] at hconverted
      obtain ⟨hconverted, hstate⟩ := hconverted
      cases hconverted
      obtain ⟨first, second, hfirst, hsecond, rfl⟩ := recordStream_append_eq_ok.mp hstream
      refine exec_bind_eq_ok.mpr ⟨(), (disk', state), ?_, ?_⟩
      · rw [exec_zoom, hcancel]
      refine exec_bind_eq_ok.mpr ⟨outputs, (disk', state'), ?_, ?_⟩
      · rw [exec_zoom, hconvert]
      refine exec_bind_eq_ok.mpr ⟨hasher ++ first, (disk', state'), ?_, ?_⟩
      · rw [exec_lift, hashOutputs_eq_ok.mpr ⟨first, hfirst, rfl⟩]
      refine ih _ _ |>.mpr ⟨hrest, others, second, ?_, hsecond, ?_⟩
      · rw [hothers, hstate]
      · rw [hfed, List.append_assoc]

variable [Blake3] [Checksum]

/-- The digest is the hash of the stream of the converted records of the chain. -/
lemma transformedDigest_eq_ok {d : Directory} {s t : Disk × τ} {digest : Digest}
    (h : (transform.transformedDigest d).exec s = (.ok digest, t)) :
    ∃ converted stream,
      (transform.convertAll (d.recordsBelow d.segments.size)).exec s.2 = (.ok converted, t.2)
        ∧ recordStream converted = .ok stream ∧ digest = Blake3.hash stream := by
  obtain ⟨⟨records, stats⟩, u, hvisit, hvisited⟩ := exec_bind_eq_ok.mp h
  obtain ⟨fed, v, hfed, hdigest⟩ := exec_bind_eq_ok.mp hvisited
  rw [exec_lift, Prod.mk.injEq] at hvisit
  obtain ⟨hvisit, rfl⟩ := hvisit
  rw [exec_pure, Prod.mk.injEq] at hdigest
  obtain ⟨hdigest, rfl⟩ := hdigest
  cases hdigest
  obtain ⟨-, rfl⟩ := visitRecords_eq_ok hvisit
  obtain ⟨-, converted, stream, hconverted, hstream, hsame⟩ :=
    (transform.hashConverted_eq_ok).mp hfed
  exact ⟨converted, stream, hconverted, hstream, congrArg Blake3.hash hsame⟩

end RecordTransform

section Digests

variable [Blake3] [Checksum]

lemma encodedDigest_eq_ok {d : Directory} {disk disk' : Disk} {digest : Digest}
    (h : (encodedDigest d).exec disk = (.ok digest, disk')) :
    ∃ stream, recordStream (d.recordsBelow d.segments.size) = .ok stream
      ∧ digest = Blake3.hash stream := by
  obtain ⟨⟨records, stats⟩, u, hvisit, hvisited⟩ := exec_bind_eq_ok.mp h
  obtain ⟨_, v, -, hdigest⟩ := exec_bind_eq_ok.mp hvisited
  rw [exec_lift, Prod.mk.injEq] at hvisit hdigest
  obtain ⟨-, rfl⟩ := visitRecords_eq_ok hvisit.1
  obtain ⟨parts, hparts, hdigest⟩ := bind_eq_ok.mp hdigest.1
  refine ⟨parts.flatten, ?_, (pure_eq_ok.mp hdigest).symm⟩
  unfold recordStream
  rw [hparts]
  rfl

/-- Streams are streams of one list of records, so unless the hash collides on the two streams that
were hashed, the digests agree exactly when the destination holds the converted records of the
source, in order and with their flags. -/
theorem digests_identify_histories {τ : Type} (transform : RecordTransform τ)
    (source destination : Directory) (s t : Disk × τ) (disk disk' : Disk)
    (original migrated : Digest)
    (horiginal : (transform.transformedDigest source).exec s = (.ok original, t))
    (hmigrated : (encodedDigest destination).exec disk = (.ok migrated, disk')) :
    (∀ records records' stream, recordStream records = .ok stream →
        recordStream records' = .ok stream → records = records')
      ∧ ∃ converted,
        (transform.convertAll (source.recordsBelow source.segments.size)).exec s.2
            = (.ok converted, t.2)
          ∧ ((∀ a b, recordStream converted = .ok a →
                recordStream (destination.recordsBelow destination.segments.size) = .ok b →
                Blake3.hash a = Blake3.hash b → a = b) →
            (original = migrated
              ↔ destination.recordsBelow destination.segments.size = converted)) := by
  refine ⟨fun _ _ _ h h' => recordStream_injective h h', ?_⟩
  obtain ⟨converted, a, hconverted, ha, rfl⟩ := transform.transformedDigest_eq_ok horiginal
  obtain ⟨b, hb, rfl⟩ := encodedDigest_eq_ok hmigrated
  refine ⟨converted, hconverted, fun hfree => ?_⟩
  constructor
  · intro hhash
    obtain rfl := hfree a b ha hb hhash
    exact recordStream_injective hb ha
  · intro hsame
    rw [hsame, ha] at hb
    cases hb
    rfl

end Digests

/-! ## The wire formats -/

section Wire

variable {P : Payloads} [AddressHash] [Postcard P]

/-- The conversion between the wire formats makes one record of each. -/
lemma convertAll_wire_eq_ok {records converted : List Record} {state : Unit} :
    ((wireTransform (P := P)).convertAll records).exec () = (.ok converted, state)
      ↔ records.mapM (convertRecord (P := P)) = .ok converted := by
  induction records generalizing converted with
  | nil =>
    rw [List.mapM_nil]
    constructor
    · intro h
      cases h
      rfl
    · intro h
      cases h
      rfl
  | cons record rest ih =>
    rw [List.mapM_cons]
    constructor
    · intro h
      obtain ⟨outputs, ⟨⟩, hconvert, h⟩ := exec_bind_eq_ok.mp h
      obtain ⟨others, ⟨⟩, hothers, h⟩ := exec_bind_eq_ok.mp h
      obtain ⟨output, ⟨⟩, houtput, hconvert⟩ := exec_bind_eq_ok.mp hconvert
      rw [exec_lift, Prod.mk.injEq] at houtput
      cases hconvert
      cases h
      refine bind_eq_ok.mpr ⟨⟨record.flags, output⟩, ?_, ?_⟩
      · exact bind_eq_ok.mpr ⟨output, houtput.1, rfl⟩
      · exact bind_eq_ok.mpr ⟨others, ih.mp hothers, rfl⟩
    · intro h
      obtain ⟨output, houtput, h⟩ := bind_eq_ok.mp h
      obtain ⟨others, hothers, h⟩ := bind_eq_ok.mp h
      obtain ⟨bytes, hbytes, houtput⟩ := bind_eq_ok.mp houtput
      cases houtput
      cases h
      refine exec_bind_eq_ok.mpr ⟨[bytes], (), ?_, ?_⟩
      · refine exec_bind_eq_ok.mpr ⟨bytes, (), ?_, rfl⟩
        rw [exec_lift, hbytes]
      · exact exec_bind_eq_ok.mpr ⟨others, (), ih.mpr hothers, rfl⟩

variable [Blake3] [Checksum]

/-- The digest under the converter of the wire formats is the digest of a plain migration. -/
lemma transformedDigest_wire {d : Directory} {disk disk' : Disk} {state : Unit} {digest : Digest} :
    ((wireTransform (P := P)).transformedDigest d).exec (disk, ()) = (.ok digest, (disk', state))
      ↔ (transformedDigest (P := P) d).exec disk = (.ok digest, disk') := by
  constructor
  · intro h
    obtain ⟨⟨records, stats⟩, u, hvisit, hvisited⟩ := exec_bind_eq_ok.mp h
    obtain ⟨fed, v, hfed, hdigest⟩ := exec_bind_eq_ok.mp hvisited
    rw [exec_lift, Prod.mk.injEq] at hvisit
    obtain ⟨hvisit, rfl⟩ := hvisit
    rw [exec_pure, Prod.mk.injEq] at hdigest
    obtain ⟨hdigest, rfl⟩ := hdigest
    cases hdigest
    obtain ⟨hcancels, converted, stream, hconverted, hstream, rfl⟩ :=
      (RecordTransform.hashConverted_eq_ok _).mp hfed
    obtain ⟨parts, hparts, hstream⟩ := bind_eq_ok.mp hstream
    refine exec_bind_eq_ok.mpr ⟨(records, stats), disk, by rw [exec_lift, hvisit], ?_⟩
    refine exec_bind_eq_ok.mpr ⟨(), disk', hcancels, ?_⟩
    refine exec_bind_eq_ok.mpr ⟨converted, disk', ?_, ?_⟩
    · rw [exec_lift, convertAll_wire_eq_ok.mp hconverted]
    · rw [exec_lift, ← pure_eq_ok.mp hstream]
      unfold recordsDigest
      rw [hparts]
      rfl
  · intro h
    obtain ⟨⟨records, stats⟩, u, hvisit, hvisited⟩ := exec_bind_eq_ok.mp h
    obtain ⟨⟨⟩, v, hcancels, hlooked⟩ := exec_bind_eq_ok.mp hvisited
    obtain ⟨converted, w, hconverted, hdigest⟩ := exec_bind_eq_ok.mp hlooked
    rw [exec_lift, Prod.mk.injEq] at hvisit hconverted hdigest
    obtain ⟨hvisit, rfl⟩ := hvisit
    obtain ⟨hconverted, rfl⟩ := hconverted
    obtain ⟨hdigest, rfl⟩ := hdigest
    obtain ⟨parts, hparts, hdigest⟩ := bind_eq_ok.mp hdigest
    refine exec_bind_eq_ok.mpr ⟨(records, stats), (disk, ()), by rw [exec_lift, hvisit], ?_⟩
    refine exec_bind_eq_ok.mpr ⟨parts.flatten, (v, ()), ?_, ?_⟩
    · refine (RecordTransform.hashConverted_eq_ok _).mpr ⟨hcancels, converted, parts.flatten, ?_⟩
      refine ⟨convertAll_wire_eq_ok.mpr hconverted, ?_, rfl⟩
      unfold recordStream
      rw [hparts]
      rfl
    · rw [← pure_eq_ok.mp hdigest]
      rfl

end Wire

section Messages

local instance digestAddresses : AddressHash := messageAddresses
local instance digestPostcard : Postcard messagePayloads := messagePostcard
local instance digestChecksum : Checksum := crc32cChecksum
local instance digestHash : Blake3 := runDigests

/-- A message in the versioned spelling twice, in segments of their own. -/
def dividedChain : Directory :=
  { Directory.empty with
    segments := ((∅ : Std.ExtTreeMap ℕ SegmentFile).insert 0
      ⟨frameBytes 0 [⟨0, messageV3⟩], (0, 0), 0⟩).insert 1
      ⟨frameBytes 1 [⟨0, messageV3⟩], (0, 1), 0⟩ }

set_option maxRecDepth 4096 in
/-- One frame with both spellings of a message has, converted, the digest of two segments with the
versioned spelling. -/
theorem digests_identify_histories_respelled :
    ((transformedDigest (P := messagePayloads) respelledChain.root.chain).exec {}).1
        = ((encodedDigest dividedChain).exec {}).1
      ∧ ∃ converted,
        ((wireTransform (P := messagePayloads)).convertAll
            (respelledChain.root.chain.recordsBelow
              respelledChain.root.chain.segments.size)).exec ()
          = (.ok converted, ())
        ∧ dividedChain.recordsBelow dividedChain.segments.size = converted := by
  let transform := wireTransform (P := messagePayloads)
  have horiginal : ((transformedDigest (P := messagePayloads) respelledChain.root.chain).exec {}).1
      = .ok 0xf4901c99eb77767b2a8bfff8cd4c9e0eea50b00949989f7a49c8a67e3f1d73ff := by
    decide +kernel
  have hmigrated : ((encodedDigest dividedChain).exec {}).1
      = .ok 0xf4901c99eb77767b2a8bfff8cd4c9e0eea50b00949989f7a49c8a67e3f1d73ff := by
    decide +kernel
  refine ⟨horiginal.trans hmigrated.symm, ?_⟩
  generalize hrun : (transformedDigest (P := messagePayloads) respelledChain.root.chain).exec {}
    = run at horiginal
  generalize hrun' : (encodedDigest dividedChain).exec {} = run' at hmigrated
  obtain ⟨original, disk⟩ := run
  obtain ⟨migrated, disk'⟩ := run'
  cases horiginal
  cases hmigrated
  have hwire : (transform.transformedDigest respelledChain.root.chain).exec ({}, ())
      = (.ok _, (disk, ())) := transformedDigest_wire.mpr hrun
  obtain ⟨-, converted, hconverted, hiff⟩ := digests_identify_histories transform
    respelledChain.root.chain dividedChain ({}, ()) (disk, ()) {} disk' _ _ hwire hrun'
  refine ⟨converted, hconverted, (hiff fun a b ha hb _ => ?_).mp rfl⟩
  have hsource : (transform.convertAll
      (respelledChain.root.chain.recordsBelow respelledChain.root.chain.segments.size)).exec ()
        = (.ok [⟨0, messageV3⟩, ⟨0, messageV3⟩], ()) := by
    decide +kernel
  rw [hsource] at hconverted
  cases hconverted
  have hb' : recordStream (dividedChain.recordsBelow dividedChain.segments.size)
      = recordStream [⟨0, messageV3⟩, ⟨0, messageV3⟩] := by
    decide +kernel
  rw [hb', ha] at hb
  cases hb
  rfl

end Messages

end EditChain.Migration
