import EditChain.IndexPages.Page
import Mathlib.Data.List.Basic

/-!
# Paging is invisible

A value in memory stands for a plain structure: where a page has an address, the bytes there spell
the value of the page, whether it is in memory or not. Files of pages only grow, so that what an
address spells never changes. Every access keeps this, and so does serialization, which is where a
page gets its address while it is only read.
-/

namespace EditChain.IndexPages

open Fallible

variable {α : Type}

/-! ## The plain structure -/

def Plain.shape : Plain α → Shape α
  | .leaf value => .leaf value
  | .pair _ _ => .pair
  | .page _ => .page

/-- Read a part. -/
def Plain.look : List Move → Plain α → Option (Shape α)
  | [], value => some value.shape
  | .first :: path, .pair first _ => first.look path
  | .second :: path, .pair _ second => second.look path
  | .page :: path, .page value => value.look path
  | _, _ => none

/-- Exchange a part with another structure. -/
def Plain.exchange (other : Plain α) : List Move → Plain α → Option (Plain α) × Plain α
  | [], value => (some value, other)
  | .first :: path, .pair first second =>
    ((exchange other path first).1, .pair (exchange other path first).2 second)
  | .second :: path, .pair first second =>
    ((exchange other path second).1, .pair first (exchange other path second).2)
  | .page :: path, .page value =>
    ((exchange other path value).1, .page (exchange other path value).2)
  | _, value => (none, value)

/-! ## Storages -/

/-- The bytes that were written, whether they are in the file or still buffered. -/
def Storage.contents (storage : Storage) : Bytes := storage.pages ++ storage.buffered

/-- The end is that of the bytes, and offsets do not overflow. -/
structure Storage.Sound (storage : Storage) : Prop where
  stop : storage.stop = storage.contents.length
  bound : storage.stop < 2 ^ 64

/-- The CBOR library loses nothing, and every item takes a byte at least. -/
structure Lossless (α : Type) [Ciborium α] : Prop where
  decode_encode : ∀ cbor : Cbor α, Ciborium.decode (Ciborium.encode cbor) = .ok cbor
  encode_ne_nil : ∀ cbor : Cbor α, Ciborium.encode cbor ≠ []

/-- The storages have all that others have, at the same places. -/
def Disk.Grows (disk disk' : Disk) : Prop :=
  ∀ storage, (disk storage).contents <+: (disk' storage).contents

lemma Disk.Grows.refl (disk : Disk) : disk.Grows disk := fun _ => List.prefix_refl _

lemma Disk.Grows.trans {a b c : Disk} (h : a.Grows b) (h' : b.Grows c) : a.Grows c :=
  fun storage => (h storage).trans (h' storage)

section

variable [Blake3]

/-- These bytes are at an address, in a length that is read. -/
structure Storage.Holds (storage : Storage) (address : Address) (bytes : Bytes) : Prop where
  found : (storage.contents.drop address.offset).take address.length = bytes
  length : address.length = bytes.length
  inside : address.offset + address.length ≤ storage.contents.length
  digest : address.digest = Blake3.hash bytes
  small : address.length ≤ maxPageBytes

lemma Storage.Holds.grows {storage storage' : Storage} {address : Address} {bytes : Bytes}
    (h : storage.Holds address bytes) (hgrows : storage.contents <+: storage'.contents) :
    storage'.Holds address bytes := by
  obtain ⟨rest, hrest⟩ := hgrows
  refine ⟨?_, h.length, ?_, h.digest, h.small⟩
  · rw [← hrest, ← h.found, List.drop_append_of_le_length (by have := h.inside; omega),
      List.take_append_of_le_length]
    rw [List.length_drop]
    have := h.inside
    omega
  · rw [← hrest, List.length_append]
    have := h.inside
    omega

variable [Ciborium α]

/-- What is at an address is read. -/
lemma Storage.Holds.read_eq (hlossless : Lossless α) {storage : Storage} {address : Address}
    {cbor : Cbor α} (h : storage.Holds address (Ciborium.encode cbor)) (hsound : storage.Sound)
    (hflushed : storage.buffered = []) : storage.read address = .ok cbor := by
  have hpages : storage.contents = storage.pages := by
    unfold Storage.contents
    rw [hflushed, List.append_nil]
  have hinside := h.inside
  have hstop := hsound.stop
  have hbound := hsound.bound
  have hsmall := h.small
  have hextent : ¬ (maxPageBytes < address.length ∨ 2 ^ 64 ≤ address.offset + address.length
      ∨ storage.stop < address.offset + address.length) := by
    omega
  have hfile : ¬ storage.pages.length < address.offset + address.length := by
    rw [← hpages]
    omega
  have hbytes : (storage.pages.drop address.offset).take address.length
      = Ciborium.encode cbor := by
    rw [← hpages]
    exact h.found
  unfold Storage.read
  rw [if_neg hextent, if_neg hfile]
  simp only [hbytes, h.digest, ne_eq, not_true_eq_false, if_false]
  exact hlossless.decode_encode cbor

/-! ## What is stored -/

/-- What is serialized spells a plain structure in a storage: the bytes at an address spell the value
of the page, with addresses before that one only. -/
inductive Spelled (disk : Disk) (storage : ℕ) : ℕ → Cbor α → Plain α → Prop where
  | leaf {bound : ℕ} (value : α) : Spelled disk storage bound (.leaf value) (.leaf value)
  | pair {bound : ℕ} {a b : Cbor α} {p q : Plain α} (first : Spelled disk storage bound a p)
      (second : Spelled disk storage bound b q) :
      Spelled disk storage bound (.pair a b) (.pair p q)
  | page {bound : ℕ} {address : Address} {cbor : Cbor α} {p : Plain α}
      (before : address.offset < bound)
      (held : (disk storage).Holds address (Ciborium.encode cbor))
      (inner : Spelled disk storage address.offset cbor p) :
      Spelled disk storage bound (.address address) (.page p)

/-- The value of a page is at an address. -/
def Kept (disk : Disk) (storage : ℕ) (address : Address) (p : Plain α) : Prop :=
  ∃ cbor : Cbor α, (disk storage).Holds address (Ciborium.encode cbor)
    ∧ Spelled disk storage address.offset cbor p

/-- A value stands for a plain structure. Wherever a page has an address, its value is there; a page
without its value has an address below the bound, and a decoder. -/
inductive Denotes (disk : Disk) (bound : ℕ) : Value α → Plain α → Prop where
  | leaf (value : α) : Denotes disk bound (.leaf value) (.leaf value)
  | pair {a b : Value α} {p q : Plain α} (first : Denotes disk bound a p)
      (second : Denotes disk bound b q) : Denotes disk bound (.pair a b) (.pair p q)
  | loaded {value : Value α} {address : Option (ℕ × Address)} {loader : Bool} {p : Plain α}
      (inner : Denotes disk bound value p)
      (kept : ∀ storage found, address = some (storage, found) → Kept disk storage found p) :
      Denotes disk bound (.loaded value address loader) (.page p)
  | unloaded {storage : ℕ} {address : Address} {p : Plain α} (before : address.offset < bound)
      (kept : Kept disk storage address p) :
      Denotes disk bound (.unloaded (some (storage, address)) true) (.page p)

variable {disk disk' : Disk} {storage bound bound' : ℕ} {cbor : Cbor α} {value : Value α}
  {p : Plain α} {address : Address}

lemma Spelled.grows (h : Spelled disk storage bound cbor p) (hgrows : disk.Grows disk') :
    Spelled disk' storage bound cbor p := by
  induction h with
  | leaf value => exact .leaf value
  | pair _ _ ih ih' => exact .pair ih ih'
  | page before held _ ih => exact .page before (held.grows (hgrows storage)) ih

lemma Spelled.mono (h : Spelled disk storage bound cbor p) (hbound : bound ≤ bound') :
    Spelled disk storage bound' cbor p := by
  induction h with
  | leaf value => exact .leaf value
  | pair _ _ ih ih' => exact .pair (ih hbound) (ih' hbound)
  | page before held inner _ => exact .page (Nat.lt_of_lt_of_le before hbound) held inner

lemma Kept.grows (h : Kept disk storage address p) (hgrows : disk.Grows disk') :
    Kept disk' storage address p := by
  obtain ⟨cbor, held, inner⟩ := h
  exact ⟨cbor, held.grows (hgrows storage), inner.grows hgrows⟩

lemma Denotes.grows (h : Denotes disk bound value p) (hgrows : disk.Grows disk') :
    Denotes disk' bound value p := by
  induction h with
  | leaf value => exact .leaf value
  | pair _ _ ih ih' => exact .pair ih ih'
  | loaded _ kept ih =>
    exact .loaded ih fun storage found haddress => (kept storage found haddress).grows hgrows
  | unloaded before kept => exact .unloaded before (kept.grows hgrows)

lemma Denotes.mono (h : Denotes disk bound value p) (hbound : bound ≤ bound') :
    Denotes disk bound' value p := by
  induction h with
  | leaf value => exact .leaf value
  | pair _ _ ih ih' => exact .pair ih ih'
  | loaded _ kept ih => exact .loaded ih kept
  | unloaded before kept => exact .unloaded (Nat.lt_of_lt_of_le before hbound) kept

/-- What is deserialized stands for what was spelled. -/
lemma Spelled.toValue (h : Spelled disk storage bound cbor p) :
    Denotes disk bound (cbor.toValue storage) p := by
  induction h with
  | leaf value => exact .leaf value
  | pair _ _ ih ih' => exact .pair ih ih'
  | page before held inner _ => exact .unloaded before ⟨_, held, inner⟩

/-- Pages that are made in memory have no address. -/
lemma denotes_fresh (p : Plain α) : Denotes disk bound p.fresh p := by
  induction p with
  | leaf value => exact .leaf value
  | pair _ _ ih ih' => exact .pair ih ih'
  | page _ ih => exact .loaded ih fun _ _ haddress => nomatch haddress

/-! ## Access -/

/-- Everything that was written is in the files. -/
structure Disk.Settled (disk : Disk) : Prop where
  sound : ∀ storage, (disk storage).Sound
  flushed : ∀ storage, (disk storage).buffered = []

/-- What is kept is read, and its pages stay where they are. -/
lemma wp_readValue (hlossless : Lossless α) (hsound : (disk storage).Sound)
    (hflushed : (disk storage).buffered = []) (kept : Kept disk storage address p)
    {ok : Value α → Disk → Prop} {err : Failure → Disk → Prop}
    (hok : ∀ value, Denotes disk address.offset value p → ok value disk) :
    wp (readValue storage address) ok err disk := by
  obtain ⟨cbor, held, inner⟩ := kept
  have hread := held.read_eq hlossless hsound hflushed
  unfold readValue
  rw [wp_bind, wp_get]
  simp only [hread]
  exact hok _ inner.toValue

/-- A page without its value is loaded. -/
lemma wp_loadPage (hlossless : Lossless α) (hsound : (disk storage).Sound)
    (hflushed : (disk storage).buffered = []) (kept : Kept disk storage address p)
    {ok : Value α → Disk → Prop} {err : Failure → Disk → Prop}
    (hok : ∀ value, Denotes disk address.offset value p → ok value disk) :
    wp (loadPage (some (storage, address)) true) ok err disk :=
  wp_readValue hlossless hsound hflushed kept hok

/-- Reading shows what the plain structure shows, and changes nothing but what is in memory. -/
lemma wp_look (hlossless : Lossless α) (hsettled : disk.Settled) (path : List Move)
    (h : Denotes disk bound value p) :
    wp (value.look path) (fun result disk' => disk' = disk ∧ result.1 = p.look path
      ∧ Denotes disk bound result.2 p) (fun _ _ => False) disk := by
  induction path generalizing bound value p with
  | nil =>
    cases h with
    | leaf value => exact ⟨rfl, rfl, .leaf value⟩
    | pair first second => exact ⟨rfl, rfl, .pair first second⟩
    | loaded inner kept => exact ⟨rfl, rfl, .loaded inner kept⟩
    | unloaded before kept => exact ⟨rfl, rfl, .unloaded before kept⟩
  | cons move path ih =>
    cases h with
    | leaf value => cases move <;> exact ⟨rfl, rfl, .leaf value⟩
    | pair first second =>
      cases move with
      | first =>
        rw [Value.look, wp_bind]
        apply wp_mono (ih first)
        · rintro ⟨shape, value⟩ _ ⟨rfl, hshape, hvalue⟩
          exact ⟨rfl, hshape, .pair hvalue second⟩
        · exact fun _ _ => id
      | second =>
        rw [Value.look, wp_bind]
        apply wp_mono (ih second)
        · rintro ⟨shape, value⟩ _ ⟨rfl, hshape, hvalue⟩
          exact ⟨rfl, hshape, .pair first hvalue⟩
        · exact fun _ _ => id
      | page => exact ⟨rfl, rfl, .pair first second⟩
    | loaded inner kept =>
      cases move with
      | first => exact ⟨rfl, rfl, .loaded inner kept⟩
      | second => exact ⟨rfl, rfl, .loaded inner kept⟩
      | page =>
        rw [Value.look, wp_bind]
        apply wp_mono (ih inner)
        · rintro ⟨shape, value⟩ _ ⟨rfl, hshape, hvalue⟩
          exact ⟨rfl, hshape, .loaded hvalue kept⟩
        · exact fun _ _ => id
    | @unloaded storage address p before kept =>
      cases move with
      | first => exact ⟨rfl, rfl, .unloaded before kept⟩
      | second => exact ⟨rfl, rfl, .unloaded before kept⟩
      | page =>
        rw [Value.look, wp_bind]
        apply wp_loadPage hlossless (hsettled.sound storage) (hsettled.flushed storage) kept
        intro value hvalue
        rw [wp_bind]
        apply wp_mono (ih (hvalue.mono (Nat.le_of_lt before)))
        · rintro ⟨shape, value⟩ _ ⟨rfl, hshape, hvalue⟩
          refine ⟨rfl, hshape, .loaded hvalue ?_⟩
          rintro _ _ ⟨⟩
          exact kept
        · exact fun _ _ => id

/-- Two parts that may be missing. -/
inductive Parts (disk : Disk) (bound : ℕ) : Option (Value α) → Option (Plain α) → Prop where
  | none : Parts disk bound none none
  | some {value : Value α} {p : Plain α} (h : Denotes disk bound value p) :
      Parts disk bound (some value) (some p)

/-- Exchanging a part is exchanging it in the plain structure: the pages on the way have no address
any more, and no other page is touched. -/
lemma wp_exchange (hlossless : Lossless α) (hsettled : disk.Settled) (path : List Move)
    {other : Value α} {q : Plain α} (hother : Denotes disk bound other q)
    (h : Denotes disk bound value p) :
    wp (Value.exchange other path value) (fun result disk' => disk' = disk
      ∧ Parts disk bound result.1 (Plain.exchange q path p).1
      ∧ Denotes disk bound result.2 (Plain.exchange q path p).2) (fun _ _ => False) disk := by
  induction path generalizing value p with
  | nil => exact ⟨rfl, .some h, hother⟩
  | cons move path ih =>
    cases h with
    | leaf value => cases move <;> exact ⟨rfl, .none, .leaf value⟩
    | pair first second =>
      cases move with
      | first =>
        rw [Value.exchange, wp_bind]
        apply wp_mono (ih first)
        · rintro ⟨old, value⟩ _ ⟨rfl, hold, hvalue⟩
          exact ⟨rfl, hold, .pair hvalue second⟩
        · exact fun _ _ => id
      | second =>
        rw [Value.exchange, wp_bind]
        apply wp_mono (ih second)
        · rintro ⟨old, value⟩ _ ⟨rfl, hold, hvalue⟩
          exact ⟨rfl, hold, .pair first hvalue⟩
        · exact fun _ _ => id
      | page => exact ⟨rfl, .none, .pair first second⟩
    | loaded inner kept =>
      cases move with
      | first => exact ⟨rfl, .none, .loaded inner kept⟩
      | second => exact ⟨rfl, .none, .loaded inner kept⟩
      | page =>
        rw [Value.exchange, wp_bind]
        apply wp_mono (ih inner)
        · rintro ⟨old, value⟩ _ ⟨rfl, hold, hvalue⟩
          refine ⟨rfl, hold, .loaded hvalue ?_⟩
          rintro _ _ ⟨⟩
        · exact fun _ _ => id
    | @unloaded storage address p before kept =>
      cases move with
      | first => exact ⟨rfl, .none, .unloaded before kept⟩
      | second => exact ⟨rfl, .none, .unloaded before kept⟩
      | page =>
        rw [Value.exchange, wp_bind]
        apply wp_loadPage hlossless (hsettled.sound storage) (hsettled.flushed storage) kept
        intro value hvalue
        rw [wp_bind]
        apply wp_mono (ih (hvalue.mono (Nat.le_of_lt before)))
        · rintro ⟨old, value⟩ _ ⟨rfl, hold, hvalue⟩
          refine ⟨rfl, hold, .loaded hvalue ?_⟩
          rintro _ _ ⟨⟩
        · exact fun _ _ => id

/-- Offsets of what is kept do not overflow. -/
lemma Kept.offset_lt (h : Kept disk storage address p) (hsound : (disk storage).Sound) :
    address.offset < 2 ^ 64 := by
  obtain ⟨cbor, held, -⟩ := h
  have hinside := held.inside
  have hstop := hsound.stop
  have hbound := hsound.bound
  omega

/-- A clone stands for the same structure. -/
lemma wp_clone (hsettled : disk.Settled) (h : Denotes disk (2 ^ 64) value p) :
    wp value.clone (fun copy disk' => disk' = disk ∧ Denotes disk (2 ^ 64) copy p)
      (fun _ _ => False) disk := by
  induction h with
  | leaf value => exact ⟨rfl, .leaf value⟩
  | pair _ _ ih ih' =>
    rw [Value.clone, wp_bind]
    apply wp_mono ih
    · rintro a _ ⟨rfl, ha⟩
      rw [wp_bind]
      apply wp_mono ih'
      · rintro b _ ⟨rfl, hb⟩
        exact ⟨rfl, .pair ha hb⟩
      · exact fun _ _ => id
    · exact fun _ _ => id
  | @loaded value address loader p inner kept ih =>
    rw [Value.clone]
    by_cases hshared : loader ∧ address.isSome
    · rw [if_pos hshared]
      obtain ⟨rfl, hsome⟩ := hshared
      obtain ⟨⟨storage, found⟩, rfl⟩ := Option.isSome_iff_exists.mp hsome
      have hkept := kept storage found rfl
      exact ⟨rfl, .unloaded (hkept.offset_lt (hsettled.sound storage)) hkept⟩
    · rw [if_neg hshared, wp_bind]
      apply wp_mono ih
      · rintro copy _ ⟨rfl, hcopy⟩
        refine ⟨rfl, .loaded hcopy ?_⟩
        rintro _ _ ⟨⟩
      · exact fun _ _ => id
  | unloaded before kept =>
    rw [Value.clone, if_pos ⟨rfl, rfl⟩]
    exact ⟨rfl, .unloaded before kept⟩

/-! ## Serialization -/

omit [Blake3] [Ciborium α] in
/-- What a structure may be serialized as: any addresses of 64 bits for its pages. -/
def Cbor.Matches : Cbor α → Plain α → Prop
  | .leaf value, .leaf value' => value = value'
  | .pair a b, .pair p q => a.Matches p ∧ b.Matches q
  | .address address, .page _ => address.offset < 2 ^ 64 ∧ address.length < 2 ^ 64
  | _, _ => False

omit [Blake3] in
/-- Every page of a structure, with whatever addresses for the pages in it, is short enough to be
read. -/
def Plain.Fits : Plain α → Prop
  | .leaf _ => True
  | .pair p q => p.Fits ∧ q.Fits
  | .page p => p.Fits ∧ ∀ cbor : Cbor α, cbor.Matches p →
    (Ciborium.encode cbor).length ≤ maxPageBytes

lemma Spelled.matches (h : Spelled disk storage bound cbor p) (hsound : (disk storage).Sound) :
    cbor.Matches p := by
  induction h with
  | leaf value => rfl
  | pair _ _ ih ih' => exact ⟨ih, ih'⟩
  | @page bound address _ _ _ held _ _ =>
    have hinside := held.inside
    have hstop := hsound.stop
    have hbound := hsound.bound
    show address.offset < 2 ^ 64 ∧ address.length < 2 ^ 64
    omega

omit [Blake3] [Ciborium α] in
/-- Writing to one storage: it has more bytes at its end, and nothing else has changed. -/
structure Written (storage : ℕ) (disk disk' : Disk) : Prop where
  others : ∀ other, other ≠ storage → disk' other = disk other
  pages : (disk' storage).pages = (disk storage).pages
  root : (disk' storage).root = (disk storage).root
  contents : (disk storage).contents <+: (disk' storage).contents
  sound : (disk' storage).Sound

omit [Blake3] in
lemma Written.refl (hsound : (disk storage).Sound) : Written storage disk disk :=
  ⟨fun _ _ => rfl, rfl, rfl, List.prefix_refl _, hsound⟩

omit [Blake3] in
lemma Written.trans {disk'' : Disk} (h : Written storage disk disk')
    (h' : Written storage disk' disk'') : Written storage disk disk'' where
  others other hne := (h'.others other hne).trans (h.others other hne)
  pages := h'.pages.trans h.pages
  root := h'.root.trans h.root
  contents := h.contents.trans h'.contents
  sound := h'.sound

omit [Blake3] in
lemma Written.grows (h : Written storage disk disk') : disk.Grows disk' := by
  intro other
  by_cases hother : other = storage
  · rw [hother]
    exact h.contents
  · have hother := h.others other hother
    exact ⟨[], by rw [hother, List.append_nil]⟩

omit [Blake3] in
/-- All storages but one are in their files. -/
structure Disk.Writing (disk : Disk) (storage : ℕ) : Prop where
  sound : ∀ other, (disk other).Sound
  flushed : ∀ other, other ≠ storage → (disk other).buffered = []

omit [Blake3] in
lemma Written.writing (h : Written storage disk disk') (hwriting : disk.Writing storage) :
    disk'.Writing storage where
  sound other := by
    by_cases hother : other = storage
    · rw [hother]
      exact h.sound
    · rw [h.others other hother]
      exact hwriting.sound other
  flushed other hother := by
    rw [h.others other hother]
    exact hwriting.flushed other hother

omit [Blake3] in
/-- A write failed because a storage would have got more bytes than an offset can count. -/
def Overflowed (storage : ℕ) (failure : Failure) (disk : Disk) : Prop :=
  failure = .io exhausted ∧ 2 ^ 64 ≤ (disk storage).contents.length

/-- Bytes are written at the end, unless offsets overflow. -/
lemma wp_write (hsound : (disk storage).Sound) (bytes : Bytes) {ok : Address → Disk → Prop}
    (hok : ∀ address disk', Written storage disk disk' →
      (bytes.length ≤ maxPageBytes → (disk' storage).Holds address bytes) →
      address.offset = (disk storage).stop → ok address disk') :
    wp (write storage bytes) ok (Overflowed storage) disk := by
  unfold write updateStorage
  simp only [wp_bind, wp_get, wp_modify, wp_pure, wp_ite, wp_throw]
  refine ⟨fun hfull => ⟨rfl, ?_⟩, fun hfits => ?_⟩
  · have hcontents : ({ disk storage with
        buffered := (disk storage).buffered ++ bytes } : Storage).contents
        = (disk storage).contents ++ bytes := (List.append_assoc _ _ _).symm
    rw [Function.update_self, hcontents, List.length_append, ← hsound.stop]
    exact hfull
  generalize hnext : Function.update _ storage _ = disk'
  have hstorage : disk' storage = { disk storage with
      buffered := (disk storage).buffered ++ bytes
      stop := (disk storage).stop + bytes.length } := by
    rw [← hnext]
    simp
  have hcontents : (disk' storage).contents = (disk storage).contents ++ bytes := by
    rw [hstorage]
    unfold Storage.contents
    rw [List.append_assoc]
  have hlength : (disk' storage).contents.length = (disk storage).stop + bytes.length := by
    rw [hcontents, List.length_append, hsound.stop]
  have hstop : (disk' storage).stop = (disk storage).stop + bytes.length := by
    rw [hstorage]
  refine hok _ disk' ⟨?_, ?_, ?_, ?_, ?_⟩ (fun hsmall => ⟨?_, rfl, ?_, rfl, hsmall⟩) rfl
  · intro other hother
    rw [← hnext, Function.update_of_ne hother, Function.update_of_ne hother]
  · rw [hstorage]
  · rw [hstorage]
  · rw [hcontents]
    exact List.prefix_append _ _
  · exact ⟨hstop.trans hlength.symm, by rw [hstop]; omega⟩
  · rw [hcontents]
    show (((disk storage).contents ++ bytes).drop (disk storage).stop).take bytes.length = bytes
    rw [hsound.stop, List.drop_left, List.take_length]
  · exact Nat.le_of_eq hlength.symm

omit [Blake3] in
lemma Written.stop_le (h : Written storage disk disk') (hsound : (disk storage).Sound) :
    (disk storage).stop ≤ (disk' storage).stop := by
  rw [hsound.stop, h.sound.stop]
  exact h.contents.length_le

/-- What is kept lies before the end. -/
lemma Kept.spelled (hlossless : Lossless α) (h : Kept disk storage address p)
    (hsound : (disk storage).Sound) :
    Spelled disk storage (disk storage).stop (.address address : Cbor α) (.page p) := by
  obtain ⟨cbor, held, inner⟩ := h
  have hpos : 0 < address.length := by
    rw [held.length]
    exact List.length_pos_iff.mpr (hlossless.encode_ne_nil cbor)
  have hinside := held.inside
  have hstop := hsound.stop
  exact .page (by omega) held inner

/-- The bytes of a page are written behind what they refer to. -/
lemma wp_writePage (hsound : (disk storage).Sound) {C : Prop}
    (hspelled : C → Spelled disk storage (disk storage).stop cbor p
      ∧ (Ciborium.encode cbor).length ≤ maxPageBytes) {ok : Address → Disk → Prop}
    (hok : ∀ address disk', Written storage disk disk' →
      (C → Kept disk' storage address p) → ok address disk') :
    wp (write storage (Ciborium.encode cbor)) ok (Overflowed storage) disk := by
  apply wp_write hsound
  intro address disk' hwritten hheld hoffset
  refine hok address disk' hwritten fun hfits => ?_
  obtain ⟨hcbor, hsmall⟩ := hspelled hfits
  refine ⟨cbor, hheld hsmall, ?_⟩
  rw [hoffset]
  exact hcbor.grows hwritten.grows

/-- Serialization writes what spells the value behind everything it refers to, and every page of the
value has an address in the storage then. It fails only when a write does. -/
lemma wp_serialize (hlossless : Lossless α) {base : Disk} (h : Denotes base bound value p)
    {now : Disk} (hgrows : base.Grows now) (hwriting : now.Writing storage) :
    wp (value.serialize storage bound)
      (fun result now' => Written storage now now' ∧ (p.Fits →
        Spelled now' storage (now' storage).stop result.1 p ∧ Denotes now' bound result.2 p))
      (Overflowed storage) now := by
  -- The bound falls with every page that is loaded; between two loads the value gets smaller.
  induction bound using Nat.strongRecOn generalizing base value p now with
  | _ bound ihb =>
    induction h generalizing now with
    | leaf value =>
      rw [Value.serialize]
      exact ⟨.refl (hwriting.sound storage), fun _ => ⟨.leaf value, .leaf value⟩⟩
    | @pair a b p q first second ih ih' =>
      rw [Value.serialize, wp_bind]
      apply wp_mono (ih hgrows hwriting)
      · rintro ⟨cbor, value⟩ now' ⟨hwritten, hfirst⟩
        rw [wp_bind]
        apply wp_mono (ih' (hgrows.trans hwritten.grows) (hwritten.writing hwriting))
        · rintro ⟨cbor', value'⟩ now'' ⟨hwritten', hsecond⟩
          refine ⟨hwritten.trans hwritten', fun hfits => ?_⟩
          obtain ⟨hspelled, hvalue⟩ := hfirst hfits.1
          obtain ⟨hspelled', hvalue'⟩ := hsecond hfits.2
          refine ⟨.pair ?_ hspelled', .pair ?_ hvalue'⟩
          · exact (hspelled.grows hwritten'.grows).mono (hwritten'.stop_le hwritten.sound)
          · exact hvalue.grows hwritten'.grows
        · exact fun _ _ => id
      · exact fun _ _ => id
    | @loaded value address loader p inner kept ih =>
      rw [Value.serialize]
      split
      · next other found hfilter =>
        obtain ⟨haddress, hother⟩ := Option.filter_eq_some_iff.mp hfilter
        rw [decide_eq_true_eq] at hother
        change other = storage at hother
        subst hother
        have hkept := (kept other found haddress).grows hgrows
        refine ⟨.refl (hwriting.sound other), fun _ =>
          ⟨hkept.spelled hlossless (hwriting.sound other), ?_⟩⟩
        exact .loaded (inner.grows hgrows)
          fun storage found haddress => (kept storage found haddress).grows hgrows
      · rw [wp_bind]
        apply wp_mono (ih hgrows hwriting)
        · rintro ⟨cbor, value⟩ now' ⟨hwritten, hinner⟩
          rw [wp_bind]
          apply wp_writePage hwritten.sound (C := (Plain.page p).Fits) fun hfits =>
            ⟨(hinner hfits.1).1, hfits.2 cbor ((hinner hfits.1).1.matches hwritten.sound)⟩
          intro found now'' hwritten' hkept
          refine ⟨hwritten.trans hwritten', fun hfits =>
            ⟨(hkept hfits).spelled hlossless hwritten'.sound,
              .loaded ((hinner hfits.1).2.grows hwritten'.grows) ?_⟩⟩
          rintro _ _ ⟨⟩
          exact hkept hfits
        · exact fun _ _ => id
    | @unloaded other address p before kept =>
      rw [Value.serialize]
      split
      · next other' found hfilter =>
        obtain ⟨haddress, hother⟩ := Option.filter_eq_some_iff.mp hfilter
        rw [decide_eq_true_eq] at hother
        change other' = storage at hother
        cases haddress
        subst hother
        have hkept := kept.grows hgrows
        exact ⟨.refl (hwriting.sound _), fun _ =>
          ⟨hkept.spelled hlossless (hwriting.sound _), .unloaded before hkept⟩⟩
      · next hfilter =>
        have hne : other ≠ storage := by
          rintro rfl
          simp at hfilter
        rw [wp_bind]
        apply wp_loadPage hlossless (hwriting.sound other) (hwriting.flushed other hne)
          (kept.grows hgrows)
        intro value hvalue
        rw [dif_pos (by exact before), wp_bind]
        apply wp_mono (ihb address.offset before hvalue (.refl now) hwriting)
        · rintro ⟨cbor, value⟩ now' ⟨hwritten, hinner⟩
          rw [wp_bind]
          apply wp_writePage hwritten.sound (C := (Plain.page p).Fits) fun hfits =>
            ⟨(hinner hfits.1).1, hfits.2 cbor ((hinner hfits.1).1.matches hwritten.sound)⟩
          intro found now'' hwritten' hkept
          refine ⟨hwritten.trans hwritten', fun hfits =>
            ⟨(hkept hfits).spelled hlossless hwritten'.sound,
              .loaded (((hinner hfits.1).2.grows hwritten'.grows).mono (Nat.le_of_lt before)) ?_⟩⟩
          rintro _ _ ⟨⟩
          exact hkept hfits
        · exact fun _ _ => id

/-! ## Checkpoints -/

omit [Blake3] [Ciborium α] in
lemma Disk.Settled.writing (h : disk.Settled) (storage : ℕ) : disk.Writing storage :=
  ⟨h.sound, fun other _ => h.flushed other⟩

omit [Blake3] [Ciborium α] in
/-- A flush moves what is buffered into the file. -/
lemma wp_flush (hwriting : disk.Writing storage) {ok : Unit → Disk → Prop}
    {err : Failure → Disk → Prop}
    (hok : ∀ disk', disk'.Settled → disk.Grows disk' → (∀ other, (disk' other).root
      = (disk other).root) → ok () disk') : wp (flush storage) ok err disk := by
  unfold flush updateStorage
  rw [wp_modify]
  generalize hnext : Function.update disk storage _ = disk'
  have hstorage : disk' storage = { disk storage with
      pages := (disk storage).contents, buffered := [] } := by
    rw [← hnext, Function.update_self]
    rfl
  have hothers : ∀ other, other ≠ storage → disk' other = disk other := by
    intro other hother
    rw [← hnext, Function.update_of_ne hother]
  have hcontents : ∀ other, (disk' other).contents = (disk other).contents := by
    intro other
    by_cases hother : other = storage
    · rw [hother, hstorage]
      show (disk storage).contents ++ [] = _
      rw [List.append_nil]
    · rw [hothers other hother]
  have hstop : ∀ other, (disk' other).stop = (disk other).stop := by
    intro other
    by_cases hother : other = storage
    · rw [hother, hstorage]
    · rw [hothers other hother]
  refine hok disk' ⟨fun other => ⟨?_, ?_⟩, fun other => ?_⟩ (fun other => ?_) fun other => ?_
  · rw [hstop, hcontents]
    exact (hwriting.sound other).stop
  · rw [hstop]
    exact (hwriting.sound other).bound
  · by_cases hother : other = storage
    · rw [hother, hstorage]
    · rw [hothers other hother]
      exact hwriting.flushed other hother
  · exact ⟨[], by rw [hcontents, List.append_nil]⟩
  · by_cases hother : other = storage
    · rw [hother, hstorage]
    · rw [hothers other hother]

/-- Writing a value writes it behind all its pages. -/
lemma wp_writeValue (hlossless : Lossless α) (hsettled : disk.Settled)
    (h : Denotes disk (2 ^ 64) value p) :
    wp (writeValue storage value)
      (fun result disk' => Written storage disk disk' ∧ ((Plain.page p).Fits →
        Kept disk' storage result.1 p ∧ Denotes disk' (2 ^ 64) result.2 p))
      (Overflowed storage) disk := by
  unfold writeValue
  rw [wp_bind]
  apply wp_mono (wp_serialize hlossless h (.refl disk) (hsettled.writing storage))
  · rintro ⟨cbor, value⟩ disk' ⟨hwritten, hserialized⟩
    rw [wp_bind]
    apply wp_writePage hwritten.sound (C := (Plain.page p).Fits) fun hfits =>
      ⟨(hserialized hfits.1).1, hfits.2 cbor ((hserialized hfits.1).1.matches hwritten.sound)⟩
    intro address disk'' hwritten' hkept
    exact ⟨hwritten.trans hwritten', fun hfits =>
      ⟨hkept hfits, (hserialized hfits.1).2.grows hwritten'.grows⟩⟩
  · exact fun _ _ => id

/-- The root of a storage names the value that was published last, if any. -/
inductive Published (disk : Disk) (storage : ℕ) : Option (Plain α) → Prop where
  | none (h : (disk storage).root = none) : Published disk storage none
  | some {address : Address} {p : Plain α}
      (h : (disk storage).root = some (Ciborium.encode (.address address : Cbor α)))
      (kept : Kept disk storage address p) : Published disk storage (some p)

lemma Published.grows {published : Option (Plain α)} (h : Published disk storage published)
    (hgrows : disk.Grows disk') (hroot : (disk' storage).root = (disk storage).root) :
    Published disk' storage published := by
  cases h with
  | none h => exact .none (hroot.trans h)
  | some h kept => exact .some (hroot.trans h) (kept.grows hgrows)

/-- What is kept and in its file is published with its address. -/
lemma wp_publishRoot (hsettled : disk.Settled) {address : Address}
    (hkept : (Plain.page p).Fits → Kept disk storage address p)
    {ok : Unit → Disk → Prop} {err : Failure → Disk → Prop}
    (hok : ∀ disk', disk'.Settled → disk.Grows disk'
      → (∀ other, other ≠ storage → (disk' other).root = (disk other).root)
      → ((Plain.page p).Fits → Kept disk' storage address p ∧ Published disk' storage (some p))
      → ok () disk') :
    wp (updateStorage storage fun s =>
      { s with root := some (Ciborium.encode (.address address : Cbor α)) }) ok err disk := by
  unfold updateStorage
  rw [wp_modify]
  generalize hnext : Function.update disk storage _ = disk'
  have hcontents : ∀ other, (disk' other).contents = (disk other).contents
      ∧ (disk' other).stop = (disk other).stop
      ∧ (disk' other).buffered = (disk other).buffered := by
    intro other
    by_cases hother : other = storage
    · rw [hother, ← hnext, Function.update_self]
      exact ⟨rfl, rfl, rfl⟩
    · rw [← hnext, Function.update_of_ne hother]
      exact ⟨rfl, rfl, rfl⟩
  have hgrows : disk.Grows disk' := by
    intro other
    simp only [(hcontents other).1, List.prefix_rfl]
  refine hok disk' ⟨fun other => ⟨?_, ?_⟩, fun other => ?_⟩ hgrows (fun other hother => ?_)
    fun hfits => ?_
  · rw [(hcontents other).1, (hcontents other).2.1]
    exact (hsettled.sound other).stop
  · rw [(hcontents other).2.1]
    exact (hsettled.sound other).bound
  · rw [(hcontents other).2.2]
    exact hsettled.flushed other
  · rw [← hnext, Function.update_of_ne hother]
  · have hkept' := (hkept hfits).grows hgrows
    refine ⟨hkept', .some ?_ hkept'⟩
    rw [← hnext, Function.update_self]

/-- `commit` publishes the value and returns it again. -/
lemma wp_commit (hlossless : Lossless α) (hsettled : disk.Settled)
    (h : Denotes disk (2 ^ 64) value p) (hfits : (Plain.page p).Fits) :
    wp (commit storage value)
      (fun result disk' => disk'.Settled ∧ disk.Grows disk' ∧ Published disk' storage (some p)
        ∧ (∀ other, other ≠ storage → (disk' other).root = (disk other).root)
        ∧ Denotes disk' (2 ^ 64) result.1 p ∧ Denotes disk' (2 ^ 64) result.2 p)
      (Overflowed storage) disk := by
  unfold commit
  rw [wp_bind]
  apply wp_mono (wp_writeValue hlossless hsettled h)
  · rintro ⟨address, value⟩ written ⟨hwritten, hresult⟩
    obtain ⟨hkept, hvalue⟩ := hresult hfits
    rw [wp_bind]
    apply wp_flush (hwritten.writing (hsettled.writing storage))
    intro flushed hflushed hgrows hroots
    rw [wp_bind]
    apply wp_publishRoot hflushed fun _ => hkept.grows hgrows
    intro disk' hsettled' hgrows' hothers hpublished
    obtain ⟨hkept', hroot⟩ := hpublished hfits
    rw [wp_bind]
    apply wp_readValue hlossless (hsettled'.sound storage) (hsettled'.flushed storage) hkept'
    intro copy hcopy
    refine ⟨hsettled', hwritten.grows.trans (hgrows.trans hgrows'), hroot, ?_,
      hcopy.mono (Nat.le_of_lt (hkept'.offset_lt (hsettled'.sound storage))),
      hvalue.grows (hgrows.trans hgrows')⟩
    intro other hother
    rw [hothers other hother, hroots, hwritten.others other hother]
  · exact fun _ _ => id

/-- `unload` returns the value again and publishes nothing. -/
lemma wp_unload (hlossless : Lossless α) (hsettled : disk.Settled)
    (h : Denotes disk (2 ^ 64) value p) (hfits : p.Fits) :
    wp (unload storage value)
      (fun result disk' => disk'.Settled ∧ disk.Grows disk'
        ∧ (∀ other, (disk' other).root = (disk other).root)
        ∧ Denotes disk' (2 ^ 64) result.1 p ∧ Denotes disk' (2 ^ 64) result.2 p)
      (Overflowed storage) disk := by
  unfold unload
  rw [wp_bind]
  apply wp_mono (wp_serialize hlossless h (.refl disk) (hsettled.writing storage))
  · rintro ⟨cbor, value⟩ written ⟨hwritten, hserialized⟩
    obtain ⟨hspelled, hvalue⟩ := hserialized hfits
    rw [wp_bind]
    apply wp_flush (hwritten.writing (hsettled.writing storage))
    intro flushed hflushed hgrows hroots
    simp only [hlossless.decode_encode]
    refine ⟨hflushed, hwritten.grows.trans hgrows, ?_, ?_, hvalue.grows hgrows⟩
    · intro other
      rw [hroots]
      by_cases hother : other = storage
      · rw [hother]
        exact hwritten.root
      · rw [hwritten.others other hother]
    · have hbound := hwritten.sound.bound
      exact (hspelled.grows hgrows).toValue.mono (Nat.le_of_lt hbound)
  · exact fun _ _ => id

/-- `load` restores the value that was published last. -/
lemma wp_load (hlossless : Lossless α) (hsettled : disk.Settled)
    (h : Published disk storage (some p)) :
    wp (load storage) (fun value disk' => disk' = disk ∧ Denotes disk (2 ^ 64) value p)
      (fun _ _ => False) disk := by
  cases h with
  | some hroot kept =>
    unfold load
    rw [wp_bind, wp_get]
    simp only [hroot, hlossless.decode_encode]
    apply wp_readValue hlossless (hsettled.sound storage) (hsettled.flushed storage) kept
    intro value hvalue
    exact ⟨rfl, hvalue.mono (Nat.le_of_lt (kept.offset_lt (hsettled.sound storage)))⟩

end
end EditChain.IndexPages
