import EditChain.Store.LogTheorems
import EditChain.Store.SegmentTheorems

/-!
# Power loss

A segment store as the append log of a `LogStore`, with what of its segments is on stable storage. A
frame is durable once its segment and the directory have been synced, and a machine that stops may
take all other bytes with it. Every call may fail at any step; one that is interrupted by a power
loss is one that fails there, and then the power is lost.
-/

namespace EditChain.Store

open Fallible UnitReader SegmentStore

/-! ## Synchronization -/

/-- What the file system does during a `sync_all`. -/
structure SyncIo where
  readDir : Option IoError := none
  /-- Opening or syncing a segment fails. -/
  segment : ℕ → Option IoError := fun _ => none
  /-- Syncing the directory fails. -/
  directory : Option IoError := none

namespace SegmentStore

/-- The loop of `sync_all`, and the sync of the directory after it. -/
def syncSegments (io : SyncIo) : List ℕ → Except IoError Unit
  | [] => unlessFault io.directory (.ok ())
  | sequence :: rest => do
    unlessFault (io.segment sequence) (.ok ())
    syncSegments io rest

/-- `sync_all`: re-establish durability of retained segments. -/
def syncAll (d : Directory) (io : SyncIo) : Except IoError Unit := do
  let sequences ← unlessFault io.readDir d.segmentSequences
  syncSegments io sequences

end SegmentStore

/-! ## Stable storage -/

variable [Checksum]

/-- The complete records at the front of a segment. -/
def recordsIn (bytes : Bytes) : List Record :=
  itemRecords (PageScanner.unitItems (pages.run none bytes).units)

/-- The records that are read whatever happens to the bytes that are not stable. -/
def Directory.survivors (d : Directory) (stable : ℕ → ℕ) : List Record :=
  d.segments.keys.flatMap fun n => recordsIn ((d.bytesAt n).take (stable n))

/-- What is stable after an append that succeeded: all of the segments it wrote to. Each frame is
written, its segment is synced, and then the directory. -/
def stableAfter (before after : Directory) (stable : ℕ → ℕ) (n : ℕ) : ℕ :=
  if (before.bytesAt n).length < (after.bytesAt n).length then (after.bytesAt n).length
  else stable n

/-- What the file system does in the calls to come. -/
structure Schedule where
  visits : List (Option IoError) := []
  appends : List (List AppendIo) := []
  syncs : List SyncIo := []

/-- An open segment store, and how much of each segment is stable. -/
structure Mounted where
  writer : Writer
  stable : ℕ → ℕ
  schedule : Schedule
  good : ∃ shapes, Good writer shapes
  within : ∀ n, stable n ≤ (writer.directory.bytesAt n).length

namespace Mounted

variable (m : Mounted)

/-- An append of the store, and what it leaves. -/
def appended (records : List Record) : Except IoError Unit × Writer :=
  (appendRecords records (m.schedule.appends.headD [])).exec m.writer

/-- An append keeps the store good, and segments only grow. -/
lemma appended_spec (records : List Record) : ∃ shapes shapes' added, Good m.writer shapes
    ∧ Good (m.appended records).2 shapes'
    ∧ Extends m.writer.directory (m.appended records).2.directory shapes shapes' added
    ∧ added <+: records ∧ ((m.appended records).1 = .ok () → added = records) := by
  obtain ⟨shapes, hgood⟩ := m.good
  obtain ⟨⟨⟨shapes', done, hgood', hextends, hdone, hall⟩, -⟩, -⟩ :=
    appendRecords_good hgood
      (rfl : _ = ((m.appended records).1, (m.appended records).2))
  have hflatten : (pagesOf m.writer.store.maxSegmentBytes records).flatten = records :=
    flatten_pagesFrom _ records [] frameOverhead
  refine ⟨shapes, shapes', done.flatten, hgood, hgood', hextends, ?_, fun hok => ?_⟩
  · obtain ⟨rest, hrest⟩ := hdone
    rw [← hflatten, ← hrest, List.flatten_append]
    exact List.prefix_append _ _
  · rw [hall hok]
    exact hflatten

/-- What is stable after an append; nothing more than before is known if it failed. -/
def stableAfterAppend (records : List Record) (n : ℕ) : ℕ :=
  if (m.appended records).1.isOk then
    stableAfter m.writer.directory (m.appended records).2.directory m.stable n
  else m.stable n

lemma stable_le_stableAfterAppend (records : List Record) (n : ℕ) :
    m.stable n ≤ m.stableAfterAppend records n := by
  have hwithin := m.within n
  unfold stableAfterAppend stableAfter
  split
  · split <;> omega
  · exact le_refl _

lemma stableAfterAppend_le (records : List Record) (n : ℕ) :
    m.stableAfterAppend records n
      ≤ ((m.appended records).2.directory.bytesAt n).length := by
  obtain ⟨shapes, shapes', added, -, -, hextends, -, -⟩ := m.appended_spec records
  have hgrows := (hextends.grows.bytesAt n).length_le
  have hwithin := m.within n
  unfold stableAfterAppend stableAfter
  split
  · split <;> omega
  · omega

/-- `append_records`. -/
def append (records : List Record) : Except IoError Unit × Mounted :=
  ((m.appended records).1,
    { writer := (m.appended records).2
      stable := m.stableAfterAppend records
      schedule := { m.schedule with appends := m.schedule.appends.tail }
      good := by
        obtain ⟨-, shapes', -, -, hgood, -⟩ := m.appended_spec records
        exact ⟨shapes', hgood⟩
      within := m.stableAfterAppend_le records })

/-- `visit_records`. -/
def visit : Except IoError (List Record × LogReadStats) × Mounted :=
  (unlessFault (m.schedule.visits.headD none)
      (visitRecords m.writer.directory),
    { m with schedule := { m.schedule with visits := m.schedule.visits.tail } })

/-- Whether the next sync succeeds. -/
def synced : Except IoError Unit :=
  syncAll m.writer.directory (m.schedule.syncs.headD {})

/-- `sync`: everything is stable if it succeeds. -/
def sync : Except IoError Unit × Mounted :=
  (m.synced,
    { writer := m.writer
      stable := fun n => if m.synced.isOk then (m.writer.directory.bytesAt n).length else m.stable n
      schedule := { m.schedule with syncs := m.schedule.syncs.tail }
      good := m.good
      within := fun n => by
        have hwithin := m.within n
        split <;> omega })

/-- The append log of a segment store. -/
def log : AppendLog Mounted where
  visitRecords := .of visit
  appendRecord flags encoded := .of fun m => m.append [⟨flags, encoded⟩]
  appendRecords records := .of fun m => m.append records
  sync := .of sync

end Mounted

/-- What a power loss leaves: of each segment at least what is stable, and none of what was not
written. Directory entries become stable in their order. -/
structure PowerLoss (d : Directory) (stable : ℕ → ℕ) (d' : Directory) : Prop where
  kept : ∀ n, d'.bytesAt n <+: d.bytesAt n
  stable : ∀ n, (d.bytesAt n).take (stable n) <+: d'.bytesAt n
  present : ∀ n : ℕ, d'.segments[n]?.isSome → d.segments[n]?.isSome
  ordered : ∀ m n : ℕ, m < n → d'.segments[n]?.isSome → d'.segments[m]?.isSome
  marker : d'.packingMarker = none ∨ d'.packingMarker = d.packingMarker
  named : d'.misnamed = d.misnamed
  settled : d'.migrating = d.migrating
  released : d'.lock ≠ .held

/-! ## Runs -/

/-- A chain directory without a writer, or with one. -/
inductive Usage where
  | idle (directory : Directory) (stable : ℕ → ℕ)
  | used (store : LogStore Mounted)

namespace Usage

def directory : Usage → Directory
  | idle directory _ => directory
  | used store => store.log.writer.directory

def stable : Usage → ℕ → ℕ
  | idle _ stable => stable
  | used store => store.log.stable

end Usage

/-- A chain directory, and the records that a call has acknowledged so far. -/
structure Site where
  usage : Usage
  acknowledged : List Bytes

namespace Site

/-- What can happen: a writer is opened or refused, a batch is appended, the writer ends, or the
power is lost. -/
inductive Step (Op : Type) [Schema Op] : Site → Site → Prop
  | opened {d d' : Directory} {stable : ℕ → ℕ} {acknowledged : List Bytes}
      {store : SegmentStore} (maxSegmentBytes : ℕ) (io : SegmentStore.OpenIo) (m : Mounted) :
      SegmentStore.openInner false maxSegmentBytes io d = (.ok store, d') →
      m.writer = ⟨d', store⟩ → m.stable = stable →
      Step Op ⟨.idle d stable, acknowledged⟩ ⟨.used (LogStore.new m), acknowledged⟩
  | refused {d d' : Directory} {stable : ℕ → ℕ} {acknowledged : List Bytes} {error : IoError}
      (maxSegmentBytes : ℕ) (io : SegmentStore.OpenIo) :
      SegmentStore.openInner false maxSegmentBytes io d = (.error error, d') →
      Step Op ⟨.idle d stable, acknowledged⟩ ⟨.idle d' stable, acknowledged⟩
  | appended {store store' : LogStore Mounted} {acknowledged records : List Bytes}
      {result : Except IoError (List Core.Admission)} :
      (LogStore.appendEncodedBatch Mounted.log records).exec store = (result, store') →
      Step Op ⟨.used store, acknowledged⟩
        ⟨.used store', if result.isOk then acknowledged ++ records else acknowledged⟩
  | closed {store : LogStore Mounted} {acknowledged : List Bytes} :
      Step Op ⟨.used store, acknowledged⟩
        ⟨.idle (SegmentStore.close store.log.writer) store.log.stable, acknowledged⟩
  | lost {usage : Usage} {acknowledged : List Bytes} {d' : Directory} :
      PowerLoss usage.directory usage.stable d' →
      Step Op ⟨usage, acknowledged⟩ ⟨.idle d' usage.stable, acknowledged⟩

/-- A chain that was never opened. -/
def empty : Site := ⟨.idle Directory.empty fun _ => 0, []⟩

end Site
end EditChain.Store
