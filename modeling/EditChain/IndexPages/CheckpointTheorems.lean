import EditChain.IndexPages.PageTheorems
import Mathlib.Data.Nat.Digits.Lemmas

/-!
# Programs on pages

A program on values with pages sees what it would see on plain structures, where loading and
reopening restore what was published last, as long as no page is written that is too long to be
read. A longer page is written and published all the same, and cannot be read again.
-/

namespace EditChain.IndexPages

open Fallible

variable {α : Type}

section

variable [Blake3] [Ciborium α] {disk disk' : Disk} {storage bound : ℕ} {value : Value α}
  {p : Plain α}

/-! ## Programs -/

omit [Blake3] [Ciborium α] in
/-- The plain structures of a program, and the one that was published last in every directory. -/
structure Reference (α : Type) where
  values : ℕ → Option (Plain α) := fun _ => none
  published : ℕ → Option (Plain α) := fun _ => none

namespace Reference

omit [Blake3] [Ciborium α]

def hold (reference : Reference α) (x : ℕ) (value : Option (Plain α)) : Reference α :=
  { reference with values := Function.update reference.values x value }

/-- One command on the plain structures. -/
def step (reference : Reference α) : Command α → Option (Shape α) × Reference α
  | .make x value => (none, reference.hold x (some value))
  | .look x path => ((reference.values x).bind fun value => value.look path, reference)
  | .exchange x path y =>
    match reference.values x, reference.values y with
    | some value, some other =>
      if x = y then (none, reference)
      else (none, (reference.hold x (some (Plain.exchange other path value).2)).hold y
        (Plain.exchange other path value).1)
    | _, _ => (none, reference)
  | .clone x y =>
    match reference.values x with
    | none => (none, reference)
    | some value => (none, reference.hold y (some value))
  | .forget x => (none, reference.hold x none)
  | .commit storage x y =>
    match reference.values x with
    | none => (none, reference)
    | some value => (none, { reference.hold y (some value) with
        published := Function.update reference.published storage (some value) })
  | .unload _ x y =>
    match reference.values x with
    | none => (none, reference)
    | some value => (none, reference.hold y (some value))
  | .load storage x => (none, reference.hold x (reference.published storage))
  | .reopen => (none, { reference with values := fun _ => none })
  | .interrupt _ x _ =>
    match reference.values x with
    | none => (none, reference)
    | some _ => (none, { reference with values := fun _ => none })

/-- Command after command. -/
def run (reference : Reference α) : List (Command α) → List (Option (Shape α)) × Reference α
  | [] => ([], reference)
  | command :: commands =>
    ((reference.step command).1 :: ((reference.step command).2.run commands).1,
      ((reference.step command).2.run commands).2)

end Reference

omit [Blake3] in
/-- No page that the command writes is too long to be read, nor is a value it publishes. -/
def Command.Fits (reference : Reference α) : Command α → Prop
  | .commit _ x _ => ∀ p, reference.values x = some p → (Plain.page p).Fits
  | .unload _ x _ => ∀ p, reference.values x = some p → p.Fits
  | _ => True

omit [Blake3] in
/-- Every command of a program fits. -/
def Reference.Fits (reference : Reference α) : List (Command α) → Prop
  | [] => True
  | command :: commands => command.Fits reference ∧ Fits (reference.step command).2 commands

/-- The process holds what the plain structures are. -/
structure Mirrors (process : Process α) (reference : Reference α) : Prop where
  settled : process.disk.Settled
  values : ∀ x, Parts process.disk (2 ^ 64) (process.values x) (reference.values x)
  published : ∀ storage, Published process.disk storage (reference.published storage)

variable {process : Process α} {reference : Reference α}

lemma Parts.grows {a : Option (Value α)} {q : Option (Plain α)} (h : Parts disk bound a q)
    (hgrows : disk.Grows disk') : Parts disk' bound a q := by
  cases h with
  | none => exact .none
  | some h => exact .some (h.grows hgrows)

/-- The storages grow, and nothing is published. -/
lemma Mirrors.moved (h : Mirrors process reference) (hsettled : disk.Settled)
    (hgrows : process.disk.Grows disk) (hroots : ∀ other, (disk other).root
      = (process.disk other).root) : Mirrors { process with disk := disk } reference where
  settled := hsettled
  values x := (h.values x).grows hgrows
  published storage := (h.published storage).grows hgrows (hroots storage)

/-- Hold a value that stands for a structure. -/
lemma Mirrors.hold (h : Mirrors process reference) (x : ℕ) {a : Option (Value α)}
    {q : Option (Plain α)} (hvalue : Parts process.disk (2 ^ 64) a q) :
    Mirrors (process.hold x a) (reference.hold x q) where
  settled := h.settled
  values y := by
    show Parts process.disk (2 ^ 64) (Function.update process.values x a y)
      (Function.update reference.values x q y)
    by_cases hxy : y = x
    · subst hxy
      rw [Function.update_self, Function.update_self]
      exact hvalue
    · rw [Function.update_of_ne hxy, Function.update_of_ne hxy]
      exact h.values y
  published := h.published

/-- Hold in another form what is held already. -/
lemma Mirrors.rehold (h : Mirrors process reference) (x : ℕ) {a : Option (Value α)}
    (hvalue : Parts process.disk (2 ^ 64) a (reference.values x)) :
    Mirrors (process.hold x a) reference := by
  have hsame : reference.hold x (reference.values x) = reference := by
    unfold Reference.hold
    rw [Function.update_eq_self]
  rw [← hsame]
  exact h.hold x hvalue

omit [Blake3] [Ciborium α] in
/-- A run of code on the storages. -/
lemma after_cases (process : Process α) {β : Type} {code : Paging β} {ok : β → Disk → Prop}
    {err : Failure → Disk → Prop} (h : wp code ok err process.disk)
    (next : β → Process α → Option (Shape α) × Process α) :
    (∃ result disk, ok result disk ∧ process.after code next
        = (.ok (next result { process with disk := disk }).1,
          (next result { process with disk := disk }).2))
      ∨ ∃ failure disk, err failure disk
        ∧ process.after code next = (.error failure, { process with disk := disk }) := by
  unfold Process.after
  cases hrun : code.exec process.disk with
  | mk result disk =>
    cases result with
    | ok result => exact .inl ⟨result, disk, wp_eq_ok h hrun, rfl⟩
    | error failure => exact .inr ⟨failure, disk, wp_eq_error h hrun, rfl⟩

omit [Blake3] [Ciborium α] in
lemma Storage.contents_reopened (storage : Storage) (count : ℕ) :
    (storage.reopened count).contents = storage.pages ++ storage.buffered.take count := by
  unfold Storage.reopened Storage.contents
  rw [List.append_nil]

omit [Blake3] [Ciborium α] in
/-- After a stop in the middle of writing, the storages have at least what they had before. -/
lemma Written.reopened (h : Written storage disk disk') (hsettled : disk.Settled) (count : ℕ) :
    (Disk.Settled fun other => (disk' other).reopened count)
      ∧ (disk.Grows fun other => (disk' other).reopened count)
      ∧ ∀ other, ((disk' other).reopened count).root = (disk other).root := by
  have hwriting := h.writing (hsettled.writing storage)
  have hpages : ∀ other, (disk' other).pages = (disk other).pages := by
    intro other
    by_cases hother : other = storage
    · rw [hother]
      exact h.pages
    · rw [h.others other hother]
  refine ⟨⟨fun other => ⟨?_, ?_⟩, fun other => rfl⟩, fun other => ?_, fun other => ?_⟩
  · rw [Storage.contents_reopened]
    rfl
  · show ((disk' other).pages ++ (disk' other).buffered.take count).length < 2 ^ 64
    have hstop := (hwriting.sound other).stop
    have hbound := (hwriting.sound other).bound
    unfold Storage.contents at hstop
    rw [List.length_append] at hstop ⊢
    rw [List.length_take]
    omega
  · show (disk other).contents <+: ((disk' other).reopened count).contents
    rw [Storage.contents_reopened, hpages, Storage.contents, hsettled.flushed, List.append_nil]
    exact List.prefix_append _ _
  · show (disk' other).root = _
    by_cases hother : other = storage
    · rw [hother]
      exact h.root
    · rw [h.others other hother]

/-- No value outlives the process. -/
lemma Mirrors.dropped (h : Mirrors process reference) :
    Mirrors { process with values := fun _ => none } { reference with values := fun _ => none }
    where
  settled := h.settled
  values _ := .none
  published := h.published

/-- A value is held on both sides or on neither. -/
lemma Mirrors.held (h : Mirrors process reference) (x : ℕ) :
    (process.values x = none ∧ reference.values x = none)
      ∨ ∃ value p, process.values x = some value ∧ reference.values x = some p
        ∧ Denotes process.disk (2 ^ 64) value p := by
  have hx := h.values x
  cases hvalue : process.values x with
  | none =>
    cases href : reference.values x with
    | none => exact .inl ⟨rfl, rfl⟩
    | some p =>
      rw [hvalue, href] at hx
      cases hx
  | some value =>
    cases href : reference.values x with
    | none =>
      rw [hvalue, href] at hx
      cases hx
    | some p =>
      rw [hvalue, href] at hx
      cases hx with
      | some hdenotes => exact .inr ⟨value, p, rfl, rfl, hdenotes⟩

/-- A command does as the plain structure does, or a storage is full. -/
def Follows (process : Process α) (reference : Reference α) (command : Command α) : Prop :=
  (∃ next, process.step command = (.ok (reference.step command).1, next)
      ∧ Mirrors next (reference.step command).2)
    ∨ ∃ failure next storage, process.step command = (.error failure, next)
      ∧ Overflowed storage failure next.disk

lemma Mirrors.look (hlossless : Lossless α) (h : Mirrors process reference) (x : ℕ)
    (path : List Move) : Follows process reference (.look x path) := by
  unfold Follows
  rcases h.held x with ⟨hvalue, href⟩ | ⟨value, p, hvalue, href, hdenotes⟩
  · simp only [Process.step, Reference.step, hvalue, href, Option.bind_none]
    exact .inl ⟨process, rfl, h⟩
  · simp only [Process.step, Reference.step, hvalue, href, Option.bind_some]
    rcases after_cases process (wp_look hlossless h.settled path hdenotes)
      fun result process => (result.1, process.hold x (some result.2)) with
      ⟨⟨shape, next⟩, disk, ⟨rfl, rfl, hnext⟩, hafter⟩ | ⟨_, _, hfalse, -⟩
    · refine .inl ⟨_, hafter, h.rehold x ?_⟩
      rw [href]
      exact .some hnext
    · exact hfalse.elim

lemma Mirrors.exchange (hlossless : Lossless α) (h : Mirrors process reference) (x : ℕ)
    (path : List Move) (y : ℕ) : Follows process reference (.exchange x path y) := by
  unfold Follows
  rcases h.held x with ⟨hvalue, href⟩ | ⟨value, p, hvalue, href, hdenotes⟩
  · simp only [Process.step, Reference.step, hvalue, href]
    exact .inl ⟨process, rfl, h⟩
  · rcases h.held y with ⟨hother, href'⟩ | ⟨other, q, hother, href', hdenotes'⟩
    · simp only [Process.step, Reference.step, hvalue, href, hother, href']
      exact .inl ⟨process, rfl, h⟩
    · simp only [Process.step, Reference.step, hvalue, href, hother, href']
      by_cases hxy : x = y
      · rw [if_pos hxy, if_pos hxy]
        exact .inl ⟨process, rfl, h⟩
      · rw [if_neg hxy, if_neg hxy]
        rcases after_cases process (wp_exchange hlossless h.settled path hdenotes' hdenotes)
          fun result process => (none, (process.hold x (some result.2)).hold y result.1) with
          ⟨⟨old, next⟩, disk, ⟨rfl, hold, hnext⟩, hafter⟩ | ⟨_, _, hfalse, -⟩
        · exact .inl ⟨_, hafter, (h.hold x (.some hnext)).hold y hold⟩
        · exact hfalse.elim

lemma Mirrors.clone (h : Mirrors process reference) (x y : ℕ) :
    Follows process reference (.clone x y) := by
  unfold Follows
  rcases h.held x with ⟨hvalue, href⟩ | ⟨value, p, hvalue, href, hdenotes⟩
  · simp only [Process.step, Reference.step, hvalue, href]
    exact .inl ⟨process, rfl, h⟩
  · simp only [Process.step, Reference.step, hvalue, href]
    rcases after_cases process (wp_clone h.settled hdenotes)
      fun copy process => (none, process.hold y (some copy)) with
      ⟨copy, disk, ⟨rfl, hcopy⟩, hafter⟩ | ⟨_, _, hfalse, -⟩
    · exact .inl ⟨_, hafter, h.hold y (.some hcopy)⟩
    · exact hfalse.elim

lemma Mirrors.commit (hlossless : Lossless α) (h : Mirrors process reference)
    {storage x y : ℕ} (hfits : Command.Fits reference (.commit storage x y : Command α)) :
    Follows process reference (.commit storage x y) := by
  unfold Follows
  rcases h.held x with ⟨hvalue, href⟩ | ⟨value, p, hvalue, href, hdenotes⟩
  · simp only [Process.step, Reference.step, hvalue, href]
    exact .inl ⟨process, rfl, h⟩
  · simp only [Process.step, Reference.step, hvalue, href]
    rcases after_cases process (wp_commit hlossless h.settled hdenotes (hfits p href))
      fun result process => (none, (process.hold x (some result.2)).hold y (some result.1)) with
      ⟨⟨copy, next⟩, disk, ⟨hsettled, hgrows, hpublished, hroots, hcopy, hnext⟩, hafter⟩
        | ⟨_, disk, hfull, hafter⟩
    · refine .inl ⟨_, hafter, ?_⟩
      -- What is published is new in one storage and what it was in the others.
      have hmoved : Mirrors { process with disk := disk }
          { reference with
            published := Function.update reference.published storage (some p) } := by
        refine ⟨hsettled, fun z => (h.values z).grows hgrows, fun other => ?_⟩
        show Published disk other (Function.update reference.published storage (some p) other)
        by_cases hother : other = storage
        · subst hother
          rw [Function.update_self]
          exact hpublished
        · rw [Function.update_of_ne hother]
          exact (h.published other).grows hgrows (hroots other hother)
      refine (hmoved.rehold x ?_).hold y (.some hcopy)
      show Parts disk (2 ^ 64) (some next) (reference.values x)
      rw [href]
      exact .some hnext
    · exact .inr ⟨_, _, _, hafter, hfull⟩

lemma Mirrors.unload (hlossless : Lossless α) (h : Mirrors process reference)
    {storage x y : ℕ} (hfits : Command.Fits reference (.unload storage x y : Command α)) :
    Follows process reference (.unload storage x y) := by
  unfold Follows
  rcases h.held x with ⟨hvalue, href⟩ | ⟨value, p, hvalue, href, hdenotes⟩
  · simp only [Process.step, Reference.step, hvalue, href]
    exact .inl ⟨process, rfl, h⟩
  · simp only [Process.step, Reference.step, hvalue, href]
    rcases after_cases process (wp_unload hlossless h.settled hdenotes (hfits p href))
      fun result process => (none, (process.hold x (some result.2)).hold y (some result.1)) with
      ⟨⟨copy, next⟩, disk, ⟨hsettled, hgrows, hroots, hcopy, hnext⟩, hafter⟩
        | ⟨_, disk, hfull, hafter⟩
    · refine .inl ⟨_, hafter, ?_⟩
      have hmoved := h.moved hsettled hgrows hroots
      refine (hmoved.rehold x ?_).hold y (.some hcopy)
      rw [href]
      exact .some hnext
    · exact .inr ⟨_, _, _, hafter, hfull⟩

lemma Mirrors.load (hlossless : Lossless α) (h : Mirrors process reference) (storage x : ℕ) :
    Follows process reference (.load storage x) := by
  unfold Follows
  have hpublished := h.published storage
  cases href : reference.published storage with
  | none =>
    rw [href] at hpublished
    cases hpublished with
    | none hroot =>
      simp only [Process.step, Reference.step, hroot, href]
      exact .inl ⟨_, rfl, h.hold x .none⟩
  | some p =>
    rw [href] at hpublished
    have hload := wp_load hlossless h.settled hpublished
    cases hpublished with
    | some hroot kept =>
      simp only [Process.step, Reference.step, hroot, href]
      rcases after_cases process hload fun value process => (none, process.hold x (some value)) with
        ⟨value, disk, ⟨rfl, hvalue⟩, hafter⟩ | ⟨_, _, hfalse, -⟩
      · exact .inl ⟨_, hafter, h.hold x (.some hvalue)⟩
      · exact hfalse.elim

lemma Mirrors.reopen (h : Mirrors process reference) : Follows process reference .reopen := by
  have hsame : (fun s => (process.disk s).reopened (process.disk s).buffered.length)
      = process.disk := by
    funext s
    have hstop := (h.settled.sound s).stop
    unfold Storage.contents at hstop
    unfold Storage.reopened
    rw [h.settled.flushed s] at hstop ⊢
    simp only [List.take_nil, List.append_nil] at hstop ⊢
    rw [← hstop, ← h.settled.flushed s]
  refine .inl ⟨_, rfl, ?_⟩
  show Mirrors { disk := fun s => _ } _
  rw [hsame]
  exact h.dropped

lemma Mirrors.interrupt (hlossless : Lossless α) (h : Mirrors process reference)
    (storage x count : ℕ) : Follows process reference (.interrupt storage x count) := by
  unfold Follows
  rcases h.held x with ⟨hvalue, href⟩ | ⟨value, p, hvalue, href, hdenotes⟩
  · simp only [Process.step, Reference.step, hvalue, href]
    exact .inl ⟨process, rfl, h⟩
  · simp only [Process.step, Reference.step, hvalue, href]
    rcases after_cases process (wp_writeValue hlossless h.settled hdenotes)
      fun _ process => (none, ({ disk := fun s => (process.disk s).reopened count } : Process α))
      with ⟨_, disk, ⟨hwritten, -⟩, hafter⟩ | ⟨_, disk, hfull, hafter⟩
    · obtain ⟨hsettled, hgrows, hroots⟩ := hwritten.reopened h.settled count
      exact .inl ⟨_, hafter, (h.moved hsettled hgrows hroots).dropped⟩
    · exact .inr ⟨_, _, _, hafter, hfull⟩

/-- One command. -/
lemma Mirrors.step (hlossless : Lossless α) (h : Mirrors process reference) (command : Command α)
    (hfits : command.Fits reference) : Follows process reference command := by
  cases command with
  | make x value => exact .inl ⟨_, rfl, h.hold x (.some (denotes_fresh value))⟩
  | look x path => exact h.look hlossless x path
  | exchange x path y => exact h.exchange hlossless x path y
  | clone x y => exact h.clone x y
  | forget x => exact .inl ⟨_, rfl, h.hold x .none⟩
  | commit storage x y => exact h.commit hlossless hfits
  | unload storage x y => exact h.unload hlossless hfits
  | load storage x => exact h.load hlossless storage x
  | reopen => exact h.reopen
  | interrupt storage x count => exact h.interrupt hlossless storage x count

lemma Mirrors.run (hlossless : Lossless α) (h : Mirrors process reference)
    (commands : List (Command α)) (hfits : reference.Fits commands) :
    (∃ last, process.run commands = (.ok (reference.run commands).1, last)
        ∧ Mirrors last (reference.run commands).2)
      ∨ ∃ failure last storage, process.run commands = (.error failure, last)
        ∧ Overflowed storage failure last.disk := by
  induction commands generalizing process reference with
  | nil => exact .inl ⟨process, rfl, h⟩
  | cons command commands ih =>
    rw [Process.run, Reference.run]
    rcases h.step hlossless command hfits.1 with
      ⟨next, hstep, hnext⟩ | ⟨failure, next, storage, hstep, hfull⟩
    · rw [hstep]
      dsimp only
      rcases ih hnext hfits.2 with ⟨last, hrun, hlast⟩ | ⟨failure, last, storage, hrun, hfull⟩
      · rw [hrun]
        exact .inl ⟨last, rfl, hlast⟩
      · rw [hrun]
        exact .inr ⟨failure, last, storage, rfl, hfull⟩
    · rw [hstep]
      exact .inr ⟨failure, next, storage, rfl, hfull⟩

lemma mirrors_start : Mirrors ({} : Process α) {} where
  settled := ⟨fun _ => ⟨rfl, by show (0 : ℕ) < 2 ^ 64; omega⟩, fun _ => rfl⟩
  values _ := .none
  published _ := .none rfl

/-- Paging is invisible as long as no page is too long to be read. A program in which every page and
every published value that a commit or an unload writes takes at most 256 MiB sees at every command
what it would see on plain structures; and the process then holds what they are: where a page has an
address, the bytes there spell its value. Only a write that would take a storage to 2^64 bytes can
stop it. -/
theorem paging_is_invisible (hlossless : Lossless α) (commands : List (Command α))
    (hfits : ({} : Reference α).Fits commands) :
    (∃ last, ({} : Process α).run commands = (.ok (({} : Reference α).run commands).1, last)
        ∧ Mirrors last (({} : Reference α).run commands).2)
      ∨ ∃ failure last storage, ({} : Process α).run commands = (.error failure, last)
        ∧ Overflowed storage failure last.disk :=
  mirrors_start.run hlossless commands hfits

end

/-! ## A format -/

section Format

/-- A number: how many digits it has to the base 256, and these. -/
def numberBytes (n : ℕ) : Bytes :=
  List.replicate (Nat.digits 256 n).length 1 ++ 0 :: (Nat.digits 256 n).map UInt8.ofNat

/-- The bytes of a value whose scalars are byte strings. -/
def itemBytes : Cbor Bytes → Bytes
  | .leaf value => 0 :: (numberBytes value.length ++ value)
  | .pair first second => 1 :: (itemBytes first ++ itemBytes second)
  | .address found => 2 :: (numberBytes found.offset ++ (numberBytes found.length
      ++ numberBytes found.digest.toNat))

/-- Read a number, and what follows. -/
def takeNumber (bytes : Bytes) : ℕ × Bytes :=
  let count := (bytes.takeWhile fun byte => byte = 1).length
  let rest := bytes.drop (count + 1)
  (Nat.ofDigits 256 ((rest.take count).map UInt8.toNat), rest.drop count)

/-- Read a value of at most so many parts, and what follows. -/
def takeItem : ℕ → Bytes → Option (Cbor Bytes × Bytes)
  | 0, _ => none
  | _ + 1, 0 :: bytes =>
    let (length, rest) := takeNumber bytes
    some (.leaf (rest.take length), rest.drop length)
  | fuel + 1, 1 :: bytes => do
    let (first, rest) ← takeItem fuel bytes
    let (second, rest) ← takeItem fuel rest
    return (.pair first second, rest)
  | _ + 1, 2 :: bytes =>
    let (offset, rest) := takeNumber bytes
    let (length, rest) := takeNumber rest
    let (digest, rest) := takeNumber rest
    some (.address ⟨offset, length, BitVec.ofNat 256 digest⟩, rest)
  | _, _ => none

local instance byteFormat : Ciborium Bytes where
  encode := itemBytes
  decode bytes := ((takeItem bytes.length bytes).map fun found => .ok found.1).getD
    (.error (invalid "invalid item"))

local instance noDigest : Blake3 where
  hash _ := 0

lemma takeNumber_append (n : ℕ) (rest : Bytes) : takeNumber (numberBytes n ++ rest) = (n, rest) := by
  have hdigits : ((Nat.digits 256 n).map UInt8.ofNat).map UInt8.toNat = Nat.digits 256 n := by
    rw [List.map_map]
    conv_rhs => rw [← List.map_id (Nat.digits 256 n)]
    apply List.map_congr_left
    intro digit hdigit
    have hlt := Nat.digits_lt_base (by omega) hdigit
    show (UInt8.ofNat digit).toNat = digit
    rw [UInt8.toNat_ofNat']
    omega
  have hlength : ((Nat.digits 256 n).map UInt8.ofNat).length = (Nat.digits 256 n).length :=
    List.length_map _
  unfold takeNumber numberBytes
  generalize (Nat.digits 256 n).map UInt8.ofNat = written at hdigits hlength
  generalize hcount : (Nat.digits 256 n).length = count at hlength
  have hones : ((List.replicate count (1 : UInt8) ++ 0 :: written ++ rest).takeWhile
      fun byte => decide (byte = 1)).length = count := by
    rw [List.append_assoc, List.takeWhile_append_of_pos, List.cons_append,
      List.takeWhile_cons_of_neg (by decide), List.append_nil, List.length_replicate]
    intro byte hbyte
    rw [List.eq_of_mem_replicate hbyte]
    rfl
  have hdrop : (List.replicate count (1 : UInt8) ++ 0 :: written ++ rest).drop (count + 1)
      = written ++ rest := by
    rw [List.append_assoc, ← List.drop_drop, List.drop_left' List.length_replicate]
    rfl
  dsimp only
  rw [hones, hdrop, List.take_left' hlength, List.drop_left' hlength, hdigits,
    Nat.ofDigits_digits]

lemma takeItem_append (cbor : Cbor Bytes) (rest : Bytes) {fuel : ℕ}
    (hfuel : (itemBytes cbor).length ≤ fuel) :
    takeItem fuel (itemBytes cbor ++ rest) = some (cbor, rest) := by
  induction cbor generalizing rest fuel with
  | leaf value =>
    cases fuel with
    | zero => simp [itemBytes] at hfuel
    | succ fuel =>
      simp only [itemBytes, List.cons_append, List.append_assoc, takeItem, takeNumber_append]
      rw [List.take_left, List.drop_left]
  | pair first second ih ih' =>
    cases fuel with
    | zero => simp [itemBytes] at hfuel
    | succ fuel =>
      rw [itemBytes, List.length_cons, List.length_append] at hfuel
      simp only [itemBytes, List.cons_append, List.append_assoc, takeItem]
      rw [ih _ (by omega)]
      show (takeItem fuel (itemBytes second ++ rest)).bind _ = _
      rw [ih' _ (by omega)]
      rfl
  | address found =>
    cases fuel with
    | zero => simp [itemBytes] at hfuel
    | succ fuel =>
      simp only [itemBytes, List.cons_append, List.append_assoc, takeItem, takeNumber_append]
      rw [BitVec.ofNat_toNat, BitVec.setWidth_eq]

lemma byteFormat_lossless : Lossless Bytes where
  decode_encode cbor := by
    have h := takeItem_append cbor [] (Nat.le_refl _)
    rw [List.append_nil] at h
    show ((takeItem (itemBytes cbor).length (itemBytes cbor)).map _).getD _ = _
    rw [h]
    rfl
  encode_ne_nil cbor := by cases cbor <;> exact List.cons_ne_nil _ _

lemma length_numberBytes {n k : ℕ} (h : n < 256 ^ k) : (numberBytes n).length ≤ 2 * k + 1 := by
  have hdigits := (Nat.digits_length_le_iff (b := 256) (by omega) n).mpr h
  unfold numberBytes
  rw [List.length_append, List.length_replicate, List.length_cons, List.length_map]
  omega

/-- An address takes few bytes. -/
lemma length_itemBytes_address {found : Address} (hoffset : found.offset < 2 ^ 64)
    (hlength : found.length < 2 ^ 64) : (itemBytes (.address found)).length ≤ 100 := by
  have hone := length_numberBytes (k := 8) (show found.offset < 256 ^ 8 by omega)
  have htwo := length_numberBytes (k := 8) (show found.length < 256 ^ 8 by omega)
  have hthree := length_numberBytes (k := 32)
    (show found.digest.toNat < 256 ^ 32 from found.digest.isLt)
  simp only [itemBytes, List.length_cons, List.length_append]
  omega

/-- `commit` of a page with one scalar. -/
def commitPage (storage : ℕ) (value : Bytes) : Paging (Value Bytes × Value Bytes) := do
  let found ← write storage (itemBytes (.leaf value))
  let address ← write storage (itemBytes (.address found))
  flush storage
  updateStorage storage fun s => { s with root := some (itemBytes (.address address)) }
  return (← readValue storage address, .loaded (.leaf value) (some (storage, found)) false)

lemma commit_page (storage : ℕ) (value : Bytes) :
    commit storage (Plain.page (.leaf value) : Plain Bytes).fresh = commitPage storage value := by
  have hserialize : (Plain.page (.leaf value) : Plain Bytes).fresh.serialize storage (2 ^ 64) = do
      let found ← write storage (itemBytes (.leaf value))
      return (.address found, .loaded (.leaf value) (some (storage, found)) false) := by
    unfold Plain.fresh
    rw [Value.serialize]
    dsimp only [Option.filter]
    rw [Plain.fresh, Value.serialize]
    rfl
  unfold commit writeValue commitPage
  rw [hserialize]
  simp only [bind_assoc, pure_bind]
  rfl

/-- A page is published, a clone of it stays as it is when the page is changed, the process stops,
and the page is loaded again. -/
def roundTrip : List (Command Bytes) :=
  [.make 0 (.page (.leaf [7])), .commit 0 0 1, .clone 1 2, .make 3 (.leaf [8]),
    .exchange 1 [.page] 3, .look 1 [.page], .look 2 [.page], .reopen, .load 0 0, .look 0 [.page]]

lemma run_roundTrip : (({} : Process Bytes).run roundTrip).1.isOk = true := by
  have hstep : ∀ process : Process Bytes,
      process.values 0 = some (Plain.page (.leaf [7]) : Plain Bytes).fresh →
      process.step (.commit 0 0 1) = process.after (commitPage 0 [7]) fun result process =>
        (none, (process.hold 0 (some result.2)).hold 1 (some result.1)) := by
    intro process hvalue
    rw [Process.step, hvalue]
    dsimp only
    rw [commit_page]
  rw [roundTrip, Process.run, Process.step]
  dsimp only
  rw [Process.run, hstep _ rfl]
  decide +kernel

/-- The program sees what the plain structures show. -/
theorem paging_is_invisible_roundTrip :
    ({} : Reference Bytes).Fits roundTrip
      ∧ ∃ last, ({} : Process Bytes).run roundTrip
          = (.ok [none, none, none, none, none, some (.leaf [8]), some (.leaf [7]), none, none,
            some (.leaf [7])], last)
        ∧ Mirrors last (({} : Reference Bytes).run roundTrip).2 := by
  have hleaf : ∀ cbor : Cbor Bytes, cbor.Matches (.leaf [7]) →
      (itemBytes cbor).length ≤ maxPageBytes := by
    intro cbor hmatches
    cases cbor with
    | leaf value =>
      cases hmatches
      decide
    | pair first second => cases hmatches
    | address found => cases hmatches
  have hpage : ∀ cbor : Cbor Bytes, cbor.Matches (.page (.leaf [7])) →
      (itemBytes cbor).length ≤ maxPageBytes := by
    intro cbor hmatches
    cases cbor with
    | leaf value => cases hmatches
    | pair first second => cases hmatches
    | address found =>
      have hlength := length_itemBytes_address hmatches.1 hmatches.2
      unfold maxPageBytes
      omega
  have hfits : ({} : Reference Bytes).Fits roundTrip := by
    refine ⟨trivial, ?_, trivial, trivial, trivial, trivial, trivial, trivial, trivial, trivial,
      trivial⟩
    rintro p ⟨⟩
    exact ⟨⟨trivial, hleaf⟩, hpage⟩
  refine ⟨hfits, ?_⟩
  rcases paging_is_invisible byteFormat_lossless roundTrip hfits with
    ⟨last, hrun, hmirrors⟩ | ⟨failure, last, storage, hrun, -⟩
  · exact ⟨last, hrun, hmirrors⟩
  · -- nothing fails
    have hok := run_roundTrip
    rw [hrun] at hok
    cases hok

/-! ## A page that is too long -/

/-- A byte string that is longer than what is read. -/
def longText : Bytes := List.replicate maxPageBytes 0

lemma maxPageBytes_lt_longText : maxPageBytes < (itemBytes (.leaf longText)).length := by
  rw [itemBytes, List.length_cons, List.length_append, longText, List.length_replicate]
  omega

lemma longText_lt : (itemBytes (.leaf longText)).length < 2 ^ 64 := by
  have hnumber := length_numberBytes (k := 8) (show maxPageBytes < 256 ^ 8 by decide)
  rw [itemBytes, List.length_cons, List.length_append, longText, List.length_replicate]
  unfold maxPageBytes at hnumber ⊢
  omega

/-- What is too long is not read, wherever it is. -/
lemma readValue_of_long {disk : Disk} {storage : ℕ} {found : Address}
    (hlong : maxPageBytes < found.length) {ok : Value Bytes → Disk → Prop}
    {err : Failure → Disk → Prop} (herr : err (.io invalidExtent) disk) :
    wp (readValue storage found) ok err disk := by
  have hread : (disk storage).read found = (.error invalidExtent : Except IoError (Cbor Bytes)) := by
    unfold Storage.read
    rw [if_pos (.inl hlong)]
  unfold readValue
  rw [wp_bind, wp_get]
  simp only [hread]
  exact herr

/-- `commit` of a text that is too long: the root is replaced, and then the text is not read. -/
lemma wp_commit_long {text : Bytes} (hlong : maxPageBytes < (itemBytes (.leaf text)).length)
    (hlt : (itemBytes (.leaf text)).length < 2 ^ 64) :
    wp (commit 0 (.leaf text)) (fun _ _ => False)
      (fun failure disk => failure = .io invalidExtent ∧ ∃ found : Address,
        (disk 0).root = some (itemBytes (.address found)) ∧ maxPageBytes < found.length)
      fun _ => {} := by
  unfold commit writeValue write flush updateStorage
  rw [Value.serialize]
  simp only [wp_bind, wp_pure, wp_get, wp_modify, wp_ite, wp_throw]
  refine ⟨fun hfull => ?_, fun _ => ?_⟩
  · change 2 ^ 64 ≤ 0 + (itemBytes (.leaf text)).length at hfull
    omega
  · apply readValue_of_long hlong
    refine ⟨rfl, ⟨0, (itemBytes (.leaf text)).length, 0⟩, ?_, hlong⟩
    rw [Function.update_self]
    rfl

/-- `load` of what is too long. -/
lemma wp_load_long {disk : Disk} {found : Address}
    (hroot : (disk 0).root = some (itemBytes (.address found)))
    (hlong : maxPageBytes < found.length) :
    wp (load 0 : Paging (Value Bytes)) (fun _ _ => False)
      (fun failure _ => failure = .io invalidExtent) disk := by
  have hdecode := byteFormat_lossless.decode_encode (.address found)
  change Ciborium.decode (itemBytes (.address found)) = _ at hdecode
  unfold load
  rw [wp_bind, wp_get]
  simp only [hroot, hdecode]
  exact readValue_of_long hlong rfl

/-- The program publishes a text of 256 MiB, and nothing fails to be written. The reference has it
published; but `commit` reports an invalid extent after it has replaced the root, and so does
`load` from then on. -/
theorem long_text_is_lost :
    ∃ last : Process Bytes,
      ({} : Process Bytes).run [.make 0 (.leaf longText), .commit 0 0 1]
          = (.error (.io invalidExtent), last)
        ∧ (({} : Reference Bytes).run [.make 0 (.leaf longText), .commit 0 0 1]).2.published 0
          = some (.leaf longText)
        ∧ (last.disk 0).root.isSome
        ∧ (last.run [.load 0 0]).1 = .error (.io invalidExtent) := by
  have hcommit := wp_commit_long maxPageBytes_lt_longText longText_lt
  generalize longText = text at hcommit ⊢
  have hstep := after_cases (({} : Process Bytes).hold 0 (some (.leaf text))) hcommit
    fun result process => (none, (process.hold 0 (some result.2)).hold 1 (some result.1))
  rcases hstep with ⟨_, _, hfalse, -⟩ | ⟨_, disk, ⟨rfl, found, hroot, hlong⟩, hafter⟩
  · exact hfalse.elim
  · have hcommits : (({} : Process Bytes).hold 0 (some (.leaf text))).step (.commit 0 0 1)
        = (.error (.io invalidExtent),
          { disk := disk, values := (({} : Process Bytes).hold 0 (some (.leaf text))).values }) :=
      hafter
    refine ⟨{ disk := disk, values := (({} : Process Bytes).hold 0 (some (.leaf text))).values },
      ?_, rfl, ?_, ?_⟩
    · rw [Process.run, Process.step, Plain.fresh]
      simp only [Process.run, hcommits]
    · rw [hroot]
      rfl
    · rcases after_cases { disk := disk, values := _ } (wp_load_long hroot hlong)
        fun value process => (none, process.hold 0 (some value)) with
        ⟨_, _, hfalse, -⟩ | ⟨_, _, rfl, hload⟩
      · exact hfalse.elim
      · rw [Process.run, Process.step]
        simp only [hroot]
        rw [hload]

end Format
end EditChain.IndexPages
