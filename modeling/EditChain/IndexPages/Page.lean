import EditChain.Core.Basic
import EditChain.Lib.Outcome
import Mathlib.Logic.Function.Basic

/-!
# Copy-on-write pages

Values with pages in them, kept in checkpoint directories. A page holds its value, an address in a
storage, or both; the address goes with the first mutable access, and serialization reuses it in the
storage that is active or else writes the page there. Storages are append-only files of pages with a
root that is replaced at once. The format of a page is a parameter.
-/

namespace EditChain.IndexPages

open Fallible

/-! ## Values -/

/-- `Address`: where a page is, and the digest of its bytes. -/
structure Address where
  offset : ℕ
  length : ℕ
  digest : Digest
deriving DecidableEq, Repr

variable {α : Type}

/-- A value of a type with pages: a scalar, a product, or a page that has its value in memory or
not. A page may have an address in some storage and a decoder. -/
inductive Value (α : Type) where
  | leaf (value : α)
  | pair (first second : Value α)
  | loaded (value : Value α) (address : Option (ℕ × Address)) (loader : Bool)
  | unloaded (address : Option (ℕ × Address)) (loader : Bool)
deriving DecidableEq, Repr

/-- A value as it is serialized: a page is its address. -/
inductive Cbor (α : Type) where
  | leaf (value : α)
  | pair (first second : Cbor α)
  | address (address : Address)
deriving DecidableEq, Repr

/-- The CBOR library, on these values. -/
class Ciborium (α : Type) where
  /-- `into_writer`. -/
  encode : Cbor α → Bytes
  /-- `from_reader`. -/
  decode : Bytes → Except IoError (Cbor α)

/-- The plain structure: a page is what it holds. -/
inductive Plain (α : Type) where
  | leaf (value : α)
  | pair (first second : Plain α)
  | page (value : Plain α)
deriving DecidableEq, Repr

/-- Pages that were made in memory: `Page::new`. -/
def Plain.fresh : Plain α → Value α
  | .leaf value => .leaf value
  | .pair first second => .pair first.fresh second.fresh
  | .page value => .loaded value.fresh none false

/-- `deserialize`: pages are addresses in the active storage. -/
def Cbor.toValue (storage : ℕ) : Cbor α → Value α
  | .leaf value => .leaf value
  | .pair first second => .pair (first.toValue storage) (second.toValue storage)
  | .address found => .unloaded (some (storage, found)) true

/-! ## Storages -/

/-- One checkpoint directory with its owner: the file of pages, what the writer has buffered, the
end of both, and the root. -/
structure Storage where
  pages : Bytes := []
  buffered : Bytes := []
  stop : ℕ := 0
  root : Option Bytes := none
deriving DecidableEq, Repr

/-- The storages of a process, by their directories. -/
abbrev Disk := ℕ → Storage

/-- An error, or a call that never returns. -/
inductive Failure where
  | io (error : IoError)
  | diverges
deriving DecidableEq, Repr

/-- `write`, when the offset overflows. -/
def exhausted : IoError := ⟨.other, "index address exhausted"⟩

/-- `read`, for an address that is too long or past the end. -/
def invalidExtent : IoError := invalid "invalid index page extent"

/-- The longest page that is read. -/
def maxPageBytes : ℕ := 256 * 1024 * 1024

/-- Run code that touches the storages. -/
abbrev Paging (β : Type) := Fallible Failure Disk β

/-- Change one storage. -/
def updateStorage (storage : ℕ) (change : Storage → Storage) : Paging Unit :=
  modify fun disk => Function.update disk storage (change (disk storage))

section

variable [Blake3]

/-- `write`, of bytes that are encoded already. -/
def write (storage : ℕ) (bytes : Bytes) : Paging Address := do
  let stop := ((← get) storage).stop
  updateStorage storage fun s => { s with buffered := s.buffered ++ bytes }
  if 2 ^ 64 ≤ stop + bytes.length then throw (.io exhausted)
  updateStorage storage fun s => { s with stop := stop + bytes.length }
  return ⟨stop, bytes.length, Blake3.hash bytes⟩

/-- `flush`. -/
def flush (storage : ℕ) : Paging Unit :=
  updateStorage storage fun s => { s with pages := s.pages ++ s.buffered, buffered := [] }

variable [Ciborium α]

/-- `read`, from the file only. -/
def Storage.read (storage : Storage) (address : Address) : Except IoError (Cbor α) :=
  if maxPageBytes < address.length ∨ 2 ^ 64 ≤ address.offset + address.length
      ∨ storage.stop < address.offset + address.length then
    .error invalidExtent
  else if storage.pages.length < address.offset + address.length then
    .error ⟨.unexpectedEof, "failed to fill whole buffer"⟩
  else
    let bytes := (storage.pages.drop address.offset).take address.length
    if Blake3.hash bytes ≠ address.digest then .error (invalid "index page checksum mismatch")
    else Ciborium.decode bytes

/-- `read` of a storage, with that storage active. -/
def readValue (storage : ℕ) (address : Address) : Paging (Value α) := do
  match ((← get) storage).read address with
  | .ok found => return found.toValue storage
  | .error error => throw (.io error)

/-! ## Pages -/

/-- `load` of a page. -/
def loadPage (address : Option (ℕ × Address)) (loader : Bool) : Paging (Value α) :=
  match address with
  | none => throw (.io ⟨.other, "index page has neither data nor address"⟩)
  | some (storage, address) =>
    if loader then readValue storage address
    else throw (.io ⟨.other, "index page has no decoder"⟩)

/-- `clone`: a page with an address and a decoder is shared and not copied. -/
def Value.clone : Value α → Paging (Value α)
  | .leaf value => return .leaf value
  | .pair first second => return .pair (← first.clone) (← second.clone)
  | .loaded value address loader => do
    if loader ∧ address.isSome then return .unloaded address loader
    else return .loaded (← value.clone) none false
  | .unloaded address loader => do
    if loader ∧ address.isSome then return .unloaded address loader
    -- A page without a value that has no address or no decoder is loaded first, which fails.
    else loadPage address loader

/-- `serialize` into a storage, for pages to be loaded whose offsets are below a bound: what is
written in the place of the value, and the value with the addresses that its pages have then. A page
that has to be loaded from another storage lies behind the pages it refers to; where it does not, the
traversal may run in a circle. -/
def Value.serialize (storage : ℕ) (bound : ℕ) (value : Value α) : Paging (Cbor α × Value α) :=
  match value with
  | .leaf value => return (.leaf value, .leaf value)
  | .pair first second => do
    let (a, first) ← first.serialize storage bound
    let (b, second) ← second.serialize storage bound
    return (.pair a b, .pair first second)
  | .loaded value address loader =>
    match address.filter fun found => decide (found.1 = storage) with
    | some (_, found) => return (.address found, .loaded value address loader)
    | none => do
      let (cbor, value) ← value.serialize storage bound
      let found ← write storage (Ciborium.encode cbor)
      return (.address found, .loaded value (some (storage, found)) loader)
  | .unloaded address loader =>
    match address.filter fun found => decide (found.1 = storage) with
    | some (_, found) => return (.address found, .unloaded address loader)
    | none => do
      let value ← loadPage address loader
      if _h : (address.elim 0 fun found => found.2.offset) < bound then
        let (cbor, value) ← value.serialize storage (address.elim 0 fun found => found.2.offset)
        let found ← write storage (Ciborium.encode cbor)
        return (.address found, .loaded value (some (storage, found)) loader)
      else throw .diverges
termination_by (bound, sizeOf value)

/-! ## Access -/

/-- A step from a value to a part of it. -/
inductive Move where
  | first
  | second
  | page
deriving DecidableEq, Repr

/-- What a value is seen to be. -/
inductive Shape (α : Type) where
  | leaf (value : α)
  | pair
  | page
deriving DecidableEq, Repr

def Value.shape : Value α → Shape α
  | .leaf value => .leaf value
  | .pair _ _ => .pair
  | .loaded _ _ _ | .unloaded _ _ => .page

/-- Read a part through shared references; pages on the way are loaded. There is no such part when
a step does not fit. -/
def Value.look : List Move → Value α → Paging (Option (Shape α) × Value α)
  | [], value => return (some value.shape, value)
  | .first :: path, .pair first second => do
    let (shape, first) ← first.look path
    return (shape, .pair first second)
  | .second :: path, .pair first second => do
    let (shape, second) ← second.look path
    return (shape, .pair first second)
  | .page :: path, .loaded value address loader => do
    let (shape, value) ← value.look path
    return (shape, .loaded value address loader)
  | .page :: path, .unloaded address loader => do
    let value ← loadPage address loader
    let (shape, value) ← value.look path
    return (shape, .loaded value address loader)
  | _, value => return (none, value)

/-- Exchange a part with another value through mutable references; pages on the way are loaded and
lose their addresses. -/
def Value.exchange (other : Value α) : List Move → Value α → Paging (Option (Value α) × Value α)
  | [], value => return (some value, other)
  | .first :: path, .pair first second => do
    let (old, first) ← exchange other path first
    return (old, .pair first second)
  | .second :: path, .pair first second => do
    let (old, second) ← exchange other path second
    return (old, .pair first second)
  | .page :: path, .loaded value _ loader => do
    let (old, value) ← exchange other path value
    return (old, .loaded value none loader)
  | .page :: path, .unloaded address loader => do
    let value ← loadPage address loader
    let (old, value) ← exchange other path value
    return (old, .loaded value none loader)
  | _, value => return (none, value)

/-! ## Checkpoints -/

/-- `Storage::write` of a value, with the storage active. -/
def writeValue (storage : ℕ) (value : Value α) : Paging (Address × Value α) := do
  let (cbor, value) ← value.serialize storage (2 ^ 64)
  return (← write storage (Ciborium.encode cbor), value)

/-- `commit`: publish a value, and return it unloaded with what has become of the value. -/
def commit (storage : ℕ) (value : Value α) : Paging (Value α × Value α) := do
  let (address, value) ← writeValue storage value
  flush storage
  updateStorage storage fun s =>
    { s with root := some (Ciborium.encode (.address address : Cbor α)) }
  return (← readValue storage address, value)

/-- `unload`: drop decoded values without publishing a root. -/
def unload (storage : ℕ) (value : Value α) : Paging (Value α × Value α) := do
  let (cbor, value) ← value.serialize storage (2 ^ 64)
  flush storage
  match (Ciborium.decode (Ciborium.encode cbor) : Except IoError (Cbor α)) with
  | .ok found => return (found.toValue storage, value)
  | .error error => throw (.io ⟨.other, error.text⟩)

/-- `load`: the published value, unloaded. -/
def load (storage : ℕ) : Paging (Value α) := do
  match ((← get) storage).root with
  | none => throw (.io ⟨.notFound, "No such file or directory"⟩)
  | some bytes =>
    match (Ciborium.decode bytes : Except IoError (Cbor α)) with
    | .ok (.address address) => readValue storage address
    | .ok _ => throw (.io (invalid "invalid type"))
    | .error error => throw (.io ⟨.invalidData, error.text⟩)

/-- What `open` finds after the process has stopped, when so many of the buffered bytes were
written. -/
def Storage.reopened (storage : Storage) (count : ℕ) : Storage :=
  let pages := storage.pages ++ storage.buffered.take count
  { pages := pages, buffered := [], stop := pages.length, root := storage.root }

/-! ## Programs -/

/-- A process: its storages and the values it holds. -/
structure Process (α : Type) where
  disk : Disk := fun _ => {}
  values : ℕ → Option (Value α) := fun _ => none

/-- A command of a program on its values. -/
inductive Command (α : Type) where
  /-- Make a value in memory. -/
  | make (x : ℕ) (value : Plain α)
  | look (x : ℕ) (path : List Move)
  /-- Exchange a part of one value with another value. -/
  | exchange (x : ℕ) (path : List Move) (y : ℕ)
  | clone (x y : ℕ)
  | forget (x : ℕ)
  | commit (storage x y : ℕ)
  | unload (storage x y : ℕ)
  | load (storage x : ℕ)
  /-- Stop the process and open all storages again. -/
  | reopen
  /-- Begin to commit a value, stop the process before the root is published, when so many of the
  bytes were written, and open all storages again. -/
  | interrupt (storage x count : ℕ)

/-- Run code on the storages of a process, and take over its result. -/
def Process.after {β : Type} (process : Process α) (code : Paging β)
    (next : β → Process α → Option (Shape α) × Process α) :
    Except Failure (Option (Shape α)) × Process α :=
  match code.exec process.disk with
  | (.ok result, disk) =>
    let (answer, process) := next result { process with disk := disk }
    (.ok answer, process)
  | (.error failure, disk) => (.error failure, { process with disk := disk })

/-- Hold a value. -/
def Process.hold (process : Process α) (x : ℕ) (value : Option (Value α)) : Process α :=
  { process with values := Function.update process.values x value }

/-- One command: what is seen, and the process after it. A command on a value that is not there does
nothing. -/
def Process.step (process : Process α) :
    Command α → Except Failure (Option (Shape α)) × Process α
  | .make x value => (.ok none, process.hold x (some value.fresh))
  | .look x path =>
    match process.values x with
    | none => (.ok none, process)
    | some value => process.after (value.look path) fun (shape, value) process =>
      (shape, process.hold x (some value))
  | .exchange x path y =>
    match process.values x, process.values y with
    | some value, some other =>
      if x = y then (.ok none, process)
      else process.after (Value.exchange other path value) fun (old, value) process =>
        (none, (process.hold x (some value)).hold y old)
    | _, _ => (.ok none, process)
  | .clone x y =>
    match process.values x with
    | none => (.ok none, process)
    | some value => process.after value.clone fun copy process =>
      (none, process.hold y (some copy))
  | .forget x => (.ok none, process.hold x none)
  | .commit storage x y =>
    match process.values x with
    | none => (.ok none, process)
    | some value => process.after (IndexPages.commit storage value) fun (copy, value) process =>
      (none, (process.hold x (some value)).hold y (some copy))
  | .unload storage x y =>
    match process.values x with
    | none => (.ok none, process)
    | some value => process.after (IndexPages.unload storage value) fun (copy, value) process =>
      (none, (process.hold x (some value)).hold y (some copy))
  | .load storage x =>
    match (process.disk storage).root with
    -- A caller starts afresh where nothing was published.
    | none => (.ok none, process.hold x none)
    | some _ => process.after (IndexPages.load storage) fun value process =>
      (none, process.hold x (some value))
  | .reopen =>
    (.ok none, { disk := fun s => (process.disk s).reopened (process.disk s).buffered.length })
  | .interrupt storage x count =>
    match process.values x with
    | none => (.ok none, process)
    | some value => process.after (writeValue storage value) fun _ process =>
      (none, { disk := fun s => (process.disk s).reopened count })

/-- Command after command, as long as none fails. -/
def Process.run (process : Process α) :
    List (Command α) → Except Failure (List (Option (Shape α))) × Process α
  | [] => (.ok [], process)
  | command :: commands =>
    match process.step command with
    | (.error failure, process) => (.error failure, process)
    | (.ok answer, process) =>
      match process.run commands with
      | (.ok answers, process) => (.ok (answer :: answers), process)
      | (.error failure, process) => (.error failure, process)

end
end EditChain.IndexPages
