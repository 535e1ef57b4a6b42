import EditChain.Store.Segment
import EditChain.Store.Tail

/-!
# A live reader beside a writer

Readers do not take the writer lock. Here `Tail::poll` is taken apart into its file system accesses,
and the steps of a writer may fall between any two of them.
-/

namespace EditChain.Store

open Core Fallible

variable {Op : Type} [Schema Op] [Checksum]

/-- Where a reader is in `poll`. -/
inductive Phase where
  /-- Between two polls, or at the head of the loop. -/
  | ready
  /-- The segment is open and its metadata is taken. -/
  | opened (metadata : FileStamp)
  /-- A slice is read. -/
  | loaded (metadata : FileStamp) (bytes : Bytes)
  /-- The slice was scanned and nothing of it was consumed. -/
  | scanned
  /-- The next segment exists. -/
  | found (next : ℕ)
deriving DecidableEq, Repr

/-- A reader in the middle of its work. -/
structure LiveReader (Op : Type) where
  tail : Tail (CanonicalChain Op)
  phase : Phase

namespace LiveReader

/-- The next step of the reader; wherever `poll` returns, the reader is ready for another poll. -/
def step (d : Directory) (r : LiveReader Op) : LiveReader Op :=
  match r.phase with
  | .ready =>
    match r.tail.openFrontier d with
    | .ok (some metadata) => { r with phase := .opened metadata }
    | .ok none | .error _ => r
  | .opened metadata => { r with phase := .loaded metadata (r.tail.readFrontier d) }
  | .loaded metadata bytes =>
    match (Tail.admitFrontier d metadata bytes {}).exec r.tail with
    | (.error _, tail) => ⟨tail, .ready⟩
    | (.ok _, tail) => ⟨tail, if r.tail.offset < tail.offset then .ready else .scanned⟩
  | .scanned =>
    match r.tail.nextSegment with
    | .error _ => { r with phase := .ready }
    | .ok next =>
      { r with phase := if d.segments[next]? = none then .ready else .found next }
  | .found next => ⟨r.tail.advance next, .ready⟩

end LiveReader

/-- A chain and a live reader of it. -/
structure Race (Op : Type) where
  chain : Chain
  reader : LiveReader Op

/-- A step of one of the parties. -/
inductive RaceStep where
  /-- A call of the writer; `append_records` writes its pages by calls of `append_page`. -/
  | write (call : Call)
  /-- The writer creates its next segment before it writes to it. -/
  | create (identity : ℕ × ℕ) (modified : ℕ)
  | read

namespace Race

/-- An empty chain and a reader that has seen nothing. -/
def start (root : String) : Race Op := ⟨Chain.empty, Tail.empty root, .ready⟩

/-- Take a step, if it is possible. -/
def step (s : Race Op) : RaceStep → Option (Race Op)
  | .write call => (call.exec s.chain).map fun result => { s with chain := result.2 }
  | .create identity modified =>
    match s.chain.store with
    | none => none
    | some store =>
      if s.chain.directory.segments[store.nextSeq]? = none then
        some { s with chain.directory.segments :=
          s.chain.directory.segments.insert store.nextSeq ⟨[], identity, modified⟩ }
      else none
  | .read => some { s with reader := s.reader.step s.chain.directory }

/-- Take steps one after another. -/
def run : List RaceStep → Race Op → Option (Race Op)
  | [], s => some s
  | step :: steps, s => (s.step step).bind (run steps)

/-- When the reader finds the next segment, the current one holds no complete item beyond the
reader's offset. -/
def Settled (s : Race Op) : RaceStep → Prop
  | .write _ | .create _ _ => True
  | .read =>
    s.reader.phase = .scanned →
      s.chain.directory.segments[s.reader.tail.segment + 1]? ≠ none →
        let bytes := (s.chain.directory.segments[s.reader.tail.segment]?.map SegmentFile.bytes).getD []
        (PageScanner.resume (bytes.drop s.reader.tail.offset) s.reader.tail.page).items.2.consumed = 0

instance (s : Race Op) : (step : RaceStep) → Decidable (s.Settled step)
  | .write _ => inferInstanceAs (Decidable True)
  | .create _ _ => inferInstanceAs (Decidable True)
  | .read => inferInstanceAs (Decidable (_ → _ → _))

/-- Every step of a run meets the condition in the state before it. -/
def AllSettled : List RaceStep → Race Op → Prop
  | [], _ => True
  | step :: steps, s => s.Settled step ∧ (s.step step).elim True (AllSettled steps)

instance decidableAllSettled : (steps : List RaceStep) → DecidablePred (@AllSettled Op _ _ steps)
  | [] => fun _ => inferInstanceAs (Decidable True)
  | step :: steps => fun s =>
    have : Decidable ((s.step step).elim True (AllSettled steps)) :=
      match s.step step with
      | none => inferInstanceAs (Decidable True)
      | some next => decidableAllSettled steps next
    inferInstanceAs (Decidable (_ ∧ _))

end Race
end EditChain.Store
