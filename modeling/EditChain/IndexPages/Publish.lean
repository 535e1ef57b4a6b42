import EditChain.IndexPages.PageTheorems

/-!
# Publications that fail

An error of the operating system can stop a commit at every step. Until the root is renamed the root
is the one before, and from then on it is the new one, complete: whatever the step, what was
published before or what is published now can be loaded.
-/

namespace EditChain.IndexPages

open Fallible

variable {α : Type} [Blake3] [Ciborium α]

/-- The steps of `commit` that call the operating system. -/
inductive CommitStep where
  /-- Writing and flushing the pages, when so many of the bytes reach the file. -/
  | writePages (count : ℕ)
  | syncPages
  /-- Creating, writing and syncing `root.next`. -/
  | writeRoot
  | renameRoot
  | syncDirectory
  | readBack
deriving DecidableEq, Repr

omit [Blake3] in
/-- An error at one step. -/
def halt (stop : Option (CommitStep × IoError)) (step : CommitStep) : Paging Unit :=
  match stop with
  | some (found, error) => if found = step then throw (.io error) else return ()
  | none => return ()

/-- The buffer is written to the file, or only a part of it is. -/
def flushUntil (stop : Option (CommitStep × IoError)) (storage : ℕ) : Paging Unit :=
  match stop with
  | some (.writePages count, error) => do
    updateStorage storage fun s =>
      { s with pages := s.pages ++ s.buffered.take count, buffered := s.buffered.drop count }
    throw (.io error)
  | _ => flush storage

/-- `commit`, with an error of the operating system at one of its steps, if there is one. -/
def commitUntil (stop : Option (CommitStep × IoError)) (storage : ℕ) (value : Value α) :
    Paging (Value α) := do
  let (address, _) ← writeValue storage value
  flushUntil stop storage
  halt stop .syncPages
  halt stop .writeRoot
  halt stop .renameRoot
  updateStorage storage fun s =>
    { s with root := some (Ciborium.encode (.address address : Cbor α)) }
  halt stop .syncDirectory
  halt stop .readBack
  readValue storage address

variable {disk : Disk} {storage : ℕ} {value : Value α} {p : Plain α}
  {stop : Option (CommitStep × IoError)}

omit [Blake3] [Ciborium α] in
lemma wp_halt {step : CommitStep} {ok : Unit → Disk → Prop} {err : Failure → Disk → Prop}
    (hok : ok () disk) (herr : ∀ error, stop = some (step, error) → err (.io error) disk) :
    wp (halt stop step) ok err disk := by
  unfold halt
  split
  · next found error =>
    rw [wp_ite]
    refine ⟨fun hsame => ?_, fun _ => hok⟩
    rw [wp_throw]
    exact herr error (by rw [hsame])
  · exact hok

/-- Without an error this is `commit`. -/
lemma exec_commitUntil_none :
    (commitUntil none storage value).exec disk
      = (((commit storage value).exec disk).1.map Prod.fst,
        ((commit storage value).exec disk).2) := by
  unfold commitUntil commit flushUntil halt
  rw [exec_bind, exec_bind]
  cases (writeValue storage value).exec disk with
  | mk written disk₁ =>
    cases written with
    | error error => rfl
    | ok result =>
      obtain ⟨address, value⟩ := result
      dsimp only
      rw [exec_bind, exec_bind]
      cases (flush storage).exec disk₁ with
      | mk flushed disk₂ =>
        cases flushed with
        | error error => rfl
        | ok done =>
          dsimp only
          simp only [pure_bind]
          rw [exec_bind, exec_bind]
          cases (updateStorage storage fun s => { s with
            root := some (Ciborium.encode (.address address : Cbor α)) }).exec disk₂ with
          | mk updated disk₃ =>
            cases updated with
            | error error => rfl
            | ok done =>
              dsimp only
              rw [exec_bind]
              cases (readValue storage address : Paging (Value α)).exec disk₃ with
              | mk copy disk₄ => cases copy <;> rfl

/-! ## What an error leaves -/

omit [Blake3] [Ciborium α] in
/-- The storages have all that they had, and the same roots. -/
structure Disk.Adds (disk disk' : Disk) : Prop where
  grows : disk.Grows disk'
  roots : ∀ other, (disk' other).root = (disk other).root

omit [Blake3] [Ciborium α] in
lemma Disk.Adds.refl (disk : Disk) : disk.Adds disk := ⟨.refl disk, fun _ => rfl⟩

omit [Blake3] [Ciborium α] in
lemma Disk.Adds.trans {a b c : Disk} (h : a.Adds b) (h' : b.Adds c) : a.Adds c :=
  ⟨h.grows.trans h'.grows, fun other => (h'.roots other).trans (h.roots other)⟩

omit [Blake3] [Ciborium α] in
/-- Code that only adds to the storages, whether it fails or not. -/
def OnlyAdds {β : Type} (code : Paging β) : Prop :=
  ∀ disk, wp code (fun _ => disk.Adds) (fun _ => disk.Adds) disk

omit [Blake3] [Ciborium α] in
lemma OnlyAdds.bind {β γ : Type} {code : Paging β} {next : β → Paging γ} (h : OnlyAdds code)
    (hnext : ∀ b, OnlyAdds (next b)) : OnlyAdds (code >>= next) := by
  intro disk
  rw [wp_bind]
  apply wp_mono (h disk)
  · intro b disk' hadds
    apply wp_mono (hnext b disk')
    · exact fun _ _ hadds' => hadds.trans hadds'
    · exact fun _ _ hadds' => hadds.trans hadds'
  · exact fun _ _ hadds => hadds

omit [Blake3] [Ciborium α] in
lemma onlyAdds_pure {β : Type} (b : β) : OnlyAdds (pure b : Paging β) := fun disk => .refl disk

omit [Blake3] [Ciborium α] in
lemma onlyAdds_throw {β : Type} (failure : Failure) : OnlyAdds (throw failure : Paging β) :=
  fun disk => .refl disk

omit [Blake3] [Ciborium α] in
lemma onlyAdds_updateStorage {change : Storage → Storage}
    (hcontents : ∀ s : Storage, s.contents <+: (change s).contents)
    (hroot : ∀ s : Storage, (change s).root = s.root) (storage : ℕ) :
    OnlyAdds (updateStorage storage change) := by
  intro disk
  unfold updateStorage
  rw [wp_modify]
  refine ⟨fun other => ?_, fun other => ?_⟩
  · by_cases hother : other = storage
    · rw [hother, Function.update_self]
      exact hcontents _
    · simp only [ne_eq, hother, not_false_eq_true, Function.update_of_ne, List.prefix_rfl]
  · by_cases hother : other = storage
    · rw [hother, Function.update_self]
      exact hroot _
    · rw [Function.update_of_ne hother]

omit [Ciborium α] in
lemma onlyAdds_write (storage : ℕ) (bytes : Bytes) : OnlyAdds (write storage bytes) := by
  intro disk
  unfold write
  rw [wp_bind, wp_get]
  have hbuffer : OnlyAdds (updateStorage storage fun s =>
      { s with buffered := s.buffered ++ bytes }) := by
    apply onlyAdds_updateStorage
    · intro s
      unfold Storage.contents
      rw [← List.append_assoc]
      exact List.prefix_append _ _
    · exact fun s => rfl
  have hstop : OnlyAdds (updateStorage storage fun s =>
      { s with stop := (disk storage).stop + bytes.length }) := by
    apply onlyAdds_updateStorage
    · exact fun s => List.prefix_refl _
    · exact fun s => rfl
  refine hbuffer.bind (fun _ => ?_) disk
  split
  · exact (onlyAdds_throw _).bind fun _ => hstop.bind fun _ => onlyAdds_pure _
  · exact hstop.bind fun _ => onlyAdds_pure _

lemma onlyAdds_readValue (storage : ℕ) (address : Address) :
    OnlyAdds (readValue storage address : Paging (Value α)) := by
  intro disk
  unfold readValue
  rw [wp_bind, wp_get]
  split
  · exact .refl disk
  · exact .refl disk

/-- Serialization only adds. -/
lemma onlyAdds_serialize (storage bound : ℕ) (value : Value α) :
    OnlyAdds (value.serialize storage bound) := by
  -- as for what it writes: the bound falls with every page that is loaded
  induction bound using Nat.strongRecOn generalizing value with
  | _ bound ihb =>
    induction value with
    | leaf value =>
      rw [Value.serialize]
      exact onlyAdds_pure _
    | pair first second ih ih' =>
      rw [Value.serialize]
      exact ih.bind fun _ => ih'.bind fun _ => onlyAdds_pure _
    | loaded value address loader ih =>
      rw [Value.serialize]
      split
      · exact onlyAdds_pure _
      · exact ih.bind fun _ => (onlyAdds_write _ _).bind fun _ => onlyAdds_pure _
    | unloaded address loader =>
      rw [Value.serialize]
      split
      · exact onlyAdds_pure _
      · have hload : OnlyAdds (loadPage address loader : Paging (Value α)) := by
          unfold loadPage
          split
          · exact onlyAdds_throw _
          · split
            · exact onlyAdds_readValue _ _
            · exact onlyAdds_throw _
        refine hload.bind fun value => ?_
        split
        · next hbound =>
          exact (ihb _ hbound value).bind fun _ => (onlyAdds_write _ _).bind fun _ =>
            onlyAdds_pure _
        · exact onlyAdds_throw _

/-- Writing a value only adds. -/
lemma onlyAdds_writeValue (storage : ℕ) (value : Value α) :
    OnlyAdds (writeValue storage value) :=
  (onlyAdds_serialize storage (2 ^ 64) value).bind fun _ =>
    (onlyAdds_write _ _).bind fun _ => onlyAdds_pure _

/-! ## Commits -/

omit [Blake3] [Ciborium α] in
lemma wp_flushUntil (hwriting : disk.Writing storage) :
    wp (flushUntil stop storage) (fun _ disk' => disk'.Settled ∧ disk.Adds disk')
      (fun _ => disk.Adds) disk := by
  unfold flushUntil
  split
  · next count error =>
    have hpart : OnlyAdds (updateStorage storage fun s =>
        { s with pages := s.pages ++ s.buffered.take count, buffered := s.buffered.drop count }) := by
      apply onlyAdds_updateStorage
      · intro s
        unfold Storage.contents
        simp only [List.append_assoc, List.take_append_drop, List.prefix_rfl]
      · exact fun s => rfl
    rw [wp_bind]
    apply wp_mono (hpart disk)
    · exact fun _ _ hadds => hadds
    · exact fun _ _ hadds => hadds
  · apply wp_flush hwriting
    exact fun disk' hsettled hgrows hroots => ⟨hsettled, hgrows, hroots⟩

/-- However a commit ends, what was published before is published still, or the value is; the latter
if it succeeds. -/
lemma wp_commitUntil (hlossless : Lossless α) (hsettled : disk.Settled)
    (h : Denotes disk (2 ^ 64) value p) {published : Option (Plain α)}
    (hpublished : Published disk storage published) :
    wp (commitUntil stop storage value)
      (fun _ disk' => (Plain.page p).Fits → Published disk' storage (some p))
      (fun _ disk' => Published disk' storage published
        ∨ ((Plain.page p).Fits → Published disk' storage (some p))) disk := by
  have hold : ∀ disk', disk.Adds disk' → Published disk' storage published :=
    fun disk' hadds => hpublished.grows hadds.grows (hadds.roots storage)
  unfold commitUntil
  rw [wp_bind]
  apply wp_mono (wp_and (wp_writeValue hlossless hsettled h) (onlyAdds_writeValue storage value disk))
  · intro result written hboth
    obtain ⟨address, next⟩ := result
    obtain ⟨⟨hwritten, hkept⟩, hadds⟩ := hboth
    rw [wp_bind]
    apply wp_mono (wp_flushUntil (hwritten.writing (hsettled.writing storage)))
    · intro _ flushed hflushed
      obtain ⟨hsettled', hadds'⟩ := hflushed
      have hfail : Published flushed storage published := hold flushed (hadds.trans hadds')
      rw [wp_bind]
      apply wp_halt _ fun _ _ => .inl hfail
      rw [wp_bind]
      apply wp_halt _ fun _ _ => .inl hfail
      rw [wp_bind]
      apply wp_halt _ fun _ _ => .inl hfail
      rw [wp_bind]
      apply wp_publishRoot hsettled' fun hfits => (hkept hfits).1.grows hadds'.grows
      intro disk' hsettled'' hgrows hothers hnew
      -- from here on the root is the new one
      rw [wp_bind]
      apply wp_halt _ fun _ _ => .inr fun hfits => (hnew hfits).2
      rw [wp_bind]
      apply wp_halt _ fun _ _ => .inr fun hfits => (hnew hfits).2
      unfold readValue
      rw [wp_bind, wp_get]
      split
      · exact fun hfits => (hnew hfits).2
      · exact .inr fun hfits => (hnew hfits).2
    · exact fun _ disk' hadds' => .inl (hold disk' (hadds.trans hadds'))
  · exact fun _ disk' hboth => .inl (hold disk' hboth.2)

end EditChain.IndexPages
