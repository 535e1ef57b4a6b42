import EditChain.Core.Admission
import EditChain.Lib.Fallible
import EditChain.Store.Frame

/-!
# Append logs and exact-byte admission

`AppendLog` is the interface of a log of immutable records; `LogStore` admits encoded operations on
top of it. An adapter's methods are stateful code that may fail, so that whatever decides whether
a call fails is part of the adapter's state.
-/

namespace EditChain.Store

open Core Fallible

variable {Op : Type} [Schema Op]

/-- Diagnostics from replaying the complete records in a log. -/
structure LogReadStats where
  /-- Retained incomplete suffixes, excluded from complete-record replay. -/
  incompleteTails : ℕ := 0
deriving DecidableEq, Repr

/-- An exclusively owned append transaction over immutable record evidence. The visitors of this
crate never fail, so visiting is modelled by the records handed to the visitor, in order. -/
structure AppendLog (L : Type) where
  visitRecords : Fallible IoError L (List Record × LogReadStats)
  appendRecord : UInt8 → Bytes → Fallible IoError L Unit
  appendRecords : List Record → Fallible IoError L Unit
  sync : Fallible IoError L Unit

/-- The trait's own `append_records`, one record at a time. -/
def AppendLog.appendEach {L : Type} (appendRecord : UInt8 → Bytes → Fallible IoError L Unit) :
    List Record → Fallible IoError L Unit
  | [] => pure ()
  | record :: records => do
    appendRecord record.flags record.data
    appendEach appendRecord records

/-- Exact operation admission over a caller-supplied append-log adapter. -/
structure LogStore (L : Type) where
  log : L
  evidence : Option OpSet

/-- Reject oversized and undecodable input, and return the operation's identity. -/
def validateRecord (bytes : Bytes) : Except IoError OpId :=
  if maxRecordBytes < bytes.length then .error ⟨.invalidInput, "record too large"⟩
  else
    match Schema.decodeOp bytes with
    | .error error => .error ⟨.invalidInput, error.text⟩
    | .ok op => .ok (Schema.id op)

/-- Retain one replayed record, unless it cannot be decoded. -/
def replayRecord (evidence : OpSet) (record : Record) : OpSet :=
  match Schema.decodeOp record.data with
  | .error _ => evidence
  | .ok op => (evidence.insert (Schema.id op) record.data).2

/-- The evidence of a sequence of records. -/
def replay (records : List Record) : OpSet := records.foldl replayRecord OpSet.new

/-- The evidence in a log. -/
def readEvidence {L : Type} (log : AppendLog L) : Fallible IoError L OpSet := do
  let (records, _stats) ← log.visitRecords
  return replay records

namespace LogStore

variable {L : Type}

/-- Use an adapter whose writer ownership covers the store's lifetime. -/
def new (log : L) : LogStore L := ⟨log, none⟩

/-- Call the adapter. -/
def onLog {α : Type} (m : Fallible IoError L α) : Fallible IoError (LogStore L) α :=
  zoom LogStore.log (fun log s => { s with log := log }) m

/-- The running state of a batch: speculative evidence, outcomes, records to append, and whether a
fence is needed. -/
structure Batch where
  evidence : OpSet
  admissions : List Admission := []
  pending : List Record := []
  fence : Bool := false

/-- Admit one record of a batch. -/
def Batch.admitOne (batch : Batch) (id : OpId) (bytes : Bytes) : Batch :=
  let (admission, evidence) := batch.evidence.insert id bytes
  { evidence := evidence
    admissions := batch.admissions ++ [admission]
    pending := if admission ≠ .duplicate then batch.pending ++ [⟨0, bytes⟩] else batch.pending
    fence := batch.fence || decide (admission ≠ .accepted) }

/-- Admit records in order. -/
def Batch.admitAll (batch : Batch) (records : List (OpId × Bytes)) : Batch :=
  records.foldl (fun b r => b.admitOne r.1 r.2) batch

/-- `self.evidence.take()`, or a replay of the log. -/
def takeEvidence (log : AppendLog L) : Fallible IoError (LogStore L) OpSet := do
  let s ← get
  set { s with evidence := none }
  match s.evidence with
  | some evidence => return evidence
  | none => onLog (readEvidence log)

/-- Fence if needed, append what is new, and keep the evidence. -/
def commit (log : AppendLog L) (batch : Batch) :
    Fallible IoError (LogStore L) (List Admission) := do
  if batch.fence then onLog log.sync
  onLog (log.appendRecords batch.pending)
  modify fun s => { s with evidence := some batch.evidence }
  return batch.admissions

/-- Admit an ordered batch with one replay per exclusive writer lifetime. -/
def appendEncodedBatch (log : AppendLog L) (records : List Bytes) :
    Fallible IoError (LogStore L) (List Admission) := do
  let ids ← lift (records.mapM validateRecord)
  if records = [] then return []
  let evidence ← takeEvidence log
  commit log (Batch.admitAll { evidence := evidence } (ids.zip records))

/-- Append supported operation bytes unchanged, or acknowledge an exact replay. -/
def appendEncoded (log : AppendLog L) (encoded : Bytes) :
    Fallible IoError (LogStore L) Admission := do
  match ← appendEncodedBatch log [encoded] with
  | admission :: _ => return admission
  | [] => throw ⟨.other, "single-record admission returned no result"⟩

/-- Append records one at a time. -/
def appendEach (log : AppendLog L) : List Bytes → Fallible IoError (LogStore L) (List Admission)
  | [] => return []
  | encoded :: rest => do
    let admission ← appendEncoded log encoded
    let admissions ← appendEach log rest
    return admission :: admissions

/-- Return the adapter. -/
def intoInner (s : LogStore L) : L := s.log

end LogStore
end EditChain.Store
