import Mathlib.Data.List.Forall2
import EditChain.Lib.Fallible
import EditChain.Store.Blob

/-!
# Published blobs are immutable and durable

Whatever any number of writers do to one directory, and whichever of their steps fail, it only
grows: a file at a final name stays as it is. A call is then followed step by step under the growth
that the others cause, up to the entries and contents that it has synchronized when it returns.
-/

namespace EditChain.Store

open Activity (BlobRef)
open Process

/-! ## Growth -/

/-- What never changes on a disk. -/
structure BlobDisk.Grows (before after : BlobDisk) : Prop where
  files : ∀ (inode : ℕ) file, before.files[inode]? = some file → ∃ synced,
    after.files[inode]? = some { file with synced := synced } ∧ (file.synced = true → synced = true)
  names : ∀ name inode, before.names name = some inode → after.names name = some inode
  durable : ∀ name, before.durable name = true → after.durable name = true

namespace BlobDisk.Grows

variable {first second third : BlobDisk}

lemma refl (disk : BlobDisk) : Grows disk disk :=
  ⟨fun _ file hfile => ⟨file.synced, hfile, id⟩, fun _ _ hname => hname, fun _ hname => hname⟩

lemma trans (h : Grows first second) (h' : Grows second third) : Grows first third := by
  refine ⟨fun inode file hfile => ?_, fun name inode hname => ?_, fun name hname => ?_⟩
  · obtain ⟨synced, hsecond, hkept⟩ := h.files inode file hfile
    obtain ⟨later, hthird, hkept'⟩ := h'.files inode _ hsecond
    exact ⟨later, hthird, fun hsynced => hkept' (hkept hsynced)⟩
  · exact h'.names name inode (h.names name inode hname)
  · exact h'.durable name (h.durable name hname)

lemma add (disk : BlobDisk) (file : BlobFile) : Grows disk (disk.add file) := by
  refine ⟨fun inode found hfound => ⟨found.synced, ?_, id⟩, fun _ _ hname => hname,
    fun _ hname => hname⟩
  show (disk.files ++ [file])[inode]? = some found
  rw [List.getElem?_append_left (List.getElem?_eq_some_iff.mp hfound).1]
  exact hfound

lemma sync (disk : BlobDisk) (inode : ℕ) : Grows disk (disk.sync inode) := by
  refine ⟨fun other found hfound => ?_, fun _ _ hname => hname, fun _ hname => hname⟩
  show ∃ synced, (disk.files.modify inode _)[other]? = _ ∧ _
  rw [List.getElem?_modify, hfound]
  by_cases heq : inode = other
  · exact ⟨true, by simp [heq], fun _ => rfl⟩
  · exact ⟨found.synced, by simp [heq], id⟩

lemma syncEntries (disk : BlobDisk) : Grows disk disk.syncEntries := by
  refine ⟨fun _ file hfile => ⟨file.synced, hfile, id⟩, fun _ _ hname => hname,
    fun name hname => ?_⟩
  show (disk.durable name || _) = true
  rw [hname, Bool.true_or]

lemma link (disk : BlobDisk) (inode : ℕ) (name : Digest) : Grows disk (disk.link inode name) := by
  unfold BlobDisk.link
  split
  · next h =>
    refine ⟨fun _ file hfile => ⟨file.synced, hfile, id⟩, fun other found hfound => ?_,
      fun _ hname => hname⟩
    show (if other = name then some inode else disk.names other) = some found
    rw [if_neg, hfound]
    rintro rfl
    rw [h.1] at hfound
    cases hfound
  · exact refl disk

lemma effect (disk : BlobDisk) (request : FileRequest) : Grows disk (request.effect disk) := by
  cases request with
  | syncDir => exact syncEntries disk
  | syncFile inode => exact sync disk inode
  | prepare bytes => exact add disk _
  | hardLink inode name => exact link disk inode name
  | _ => exact refl disk

/-- A step of the file system, failed or not, lets the disk grow. -/
lemma run (disk : BlobDisk) (request : FileRequest) (outcome : FileOutcome) :
    Grows disk (request.run disk outcome).2 := by
  cases outcome with
  | succeeds => exact effect disk request
  | fails error => exact refl disk
  | failsLate error => exact effect disk request
  | failsPartly error written =>
    cases request with
    | prepare bytes => exact add disk _
    | _ => exact refl disk

end BlobDisk.Grows

/-! ## What a store keeps -/

namespace BlobDisk

variable {disk later : BlobDisk}

/-- A file that the store has written, and that was synchronized or not. -/
def Staged (disk : BlobDisk) (inode : ℕ) (bytes : Bytes) : Prop :=
  ∃ synced, disk.files[inode]? = some ⟨bytes, true, synced⟩

/-- A final name holds exact bytes whose contents are synced. -/
def Holds (disk : BlobDisk) (name : Digest) (bytes : Bytes) : Prop :=
  ∃ inode file, disk.names name = some inode ∧ disk.files[inode]? = some file
    ∧ file.bytes = bytes ∧ file.synced = true

/-- It holds them, and its entry is synced too. -/
def Keeps (disk : BlobDisk) (name : Digest) (bytes : Bytes) : Prop :=
  disk.Holds name bytes ∧ disk.durable name = true

lemma Staged.grows {inode : ℕ} {bytes : Bytes} (hgrows : Grows disk later)
    (h : disk.Staged inode bytes) : later.Staged inode bytes := by
  obtain ⟨synced, hfile⟩ := h
  obtain ⟨synced', hlater, -⟩ := hgrows.files inode _ hfile
  exact ⟨synced', hlater⟩

lemma Holds.grows {name : Digest} {bytes : Bytes} (hgrows : Grows disk later)
    (h : disk.Holds name bytes) : later.Holds name bytes := by
  obtain ⟨inode, file, hname, hfile, hbytes, hsynced⟩ := h
  obtain ⟨synced, hlater, hkept⟩ := hgrows.files inode file hfile
  exact ⟨inode, _, hgrows.names name inode hname, hlater, hbytes, hkept hsynced⟩

lemma Keeps.grows {name : Digest} {bytes : Bytes} (hgrows : Grows disk later)
    (h : disk.Keeps name bytes) : later.Keeps name bytes :=
  ⟨h.1.grows hgrows, hgrows.durable name h.2⟩

/-- The file that is kept under a name. -/
lemma Holds.file {name : Digest} {bytes : Bytes} (h : disk.Holds name bytes) :
    ∃ file, disk.file name = some file ∧ file.bytes = bytes ∧ file.synced = true := by
  obtain ⟨inode, file, hname, hfile, hbytes, hsynced⟩ := h
  refine ⟨file, ?_, hbytes, hsynced⟩
  unfold BlobDisk.file
  rw [hname]
  exact hfile

end BlobDisk

/-! ## Steps of a call -/

variable [Blake3]

/-- A store may link a file to the name of its bytes only. -/
def FileRequest.Allowed (request : FileRequest) (disk : BlobDisk) : Prop :=
  match request with
  | .hardLink inode name => ∃ bytes, disk.Staged inode bytes ∧ Blake3.hash bytes = name
  | _ => True

/-- Other writers let the disk grow. -/
def directory : Surroundings FileRequest FileRequest.Reply IoError BlobDisk where
  acts request disk reply later := ∃ outcome, request.run disk outcome = (reply, later)
  grows := BlobDisk.Grows
  allowed := FileRequest.Allowed
  acts_grows := by
    rintro request disk reply later ⟨outcome, hrun⟩
    have hgrows := BlobDisk.Grows.run disk request outcome
    rw [hrun] at hgrows
    exact hgrows
  refl := BlobDisk.Grows.refl
  trans := BlobDisk.Grows.trans

/-- A process that keeps to the rules, and what holds when it succeeds. -/
abbrev Safe {α : Type} (ok : α → BlobDisk → Prop) (p : FileProcess α) (disk : BlobDisk) : Prop :=
  p.Sound directory ok disk

variable {disk : BlobDisk} {name : Digest} {bytes : Bytes}

/-- A step that succeeds answers, and takes effect. -/
lemma safe_ask {request : FileRequest} {ok : request.Reply → BlobDisk → Prop}
    (hallowed : ∀ later, disk.Grows later → request.Allowed later)
    (h : ∀ later reply, disk.Grows later → request.answer later = .ok reply →
      ok reply (request.effect later)) : Safe ok (ask request) disk := by
  apply sound_perform
  intro later hlater
  refine ⟨hallowed later hlater, ?_⟩
  rintro reply after ⟨outcome, hrun⟩
  cases outcome with
  | succeeds =>
    obtain ⟨hanswer, hafter⟩ := Prod.mk.inj hrun
    rw [← hafter]
    exact h later reply hlater hanswer
  | fails error => cases (Prod.mk.inj hrun).1
  | failsLate error => cases (Prod.mk.inj hrun).1
  | failsPartly error written => cases (Prod.mk.inj hrun).1

/-- A step whose answer does not matter. -/
lemma safe_step {request : FileRequest} {keep : BlobDisk → Prop}
    (hallowed : ∀ later, request.Allowed later)
    (hstable : ∀ disk later, disk.Grows later → keep disk → keep later) (h : keep disk) :
    Safe (fun _ => keep) (ask request) disk := by
  apply safe_ask
  · intro later _
    exact hallowed later
  · intro later _ hlater _
    exact hstable _ _ (hlater.trans (.effect later request)) h

/-- Synchronizing the directory makes the entries durable that were there. -/
lemma safe_syncDirectoryTree (store : BlobStore) :
    Safe (fun _ later => ∀ name inode, disk.names name = some inode → later.durable name = true)
      store.syncDirectoryTree disk := by
  have hstable : ∀ before later : BlobDisk, before.Grows later →
      (∀ name inode, disk.names name = some inode → before.durable name = true) →
      ∀ name inode, disk.names name = some inode → later.durable name = true :=
    fun before later hgrows h name inode hname => hgrows.durable name (h name inode hname)
  unfold BlobStore.syncDirectoryTree
  apply sound_bind
  have hsame : ∀ before later : BlobDisk, before.Grows later → disk.Grows before →
      disk.Grows later := fun _ _ hgrows h => h.trans hgrows
  have hcanonical : Safe (fun _ => disk.Grows) (ask .canonicalize) disk :=
    safe_step (fun _ => trivial) hsame (.refl disk)
  apply hcanonical.mono
  intro _ before hbefore
  apply sound_bind
  refine safe_ask (fun _ _ => trivial) fun later _ hlater _ => ?_
  apply sound_forM _ fun (_ : List ℕ) (later : BlobDisk) =>
    ∀ name inode, disk.names name = some inode → later.durable name = true
  · intro _ depth current _ hcurrent
    exact safe_step (fun _ => trivial) hstable hcurrent
  · intro name inode hname
    show (later.durable name || (later.names name).isSome) = true
    rw [hlater.names name inode (hbefore.names name inode hname), Option.isSome_some, Bool.or_true]

lemma safe_createDirAll (store : BlobStore) : Safe (fun _ _ => True) store.createDirAll disk := by
  have hmake : Safe (fun _ _ => True) (ask .makeDir) disk :=
    safe_step (fun _ => trivial) (fun _ _ _ _ => trivial) trivial
  unfold BlobStore.createDirAll
  apply sound_bind
  apply hmake.mono
  intro _ later _
  exact (safe_syncDirectoryTree store).mono fun _ _ _ => trivial

/-! ## Existing files -/

omit [Blake3] in
lemma flatten_chunks {α : Type} {size : ℕ} (hsize : size ≠ 0) (l : List α) :
    (chunks size l).flatten = l := by
  fun_induction chunks size l with
  | case1 l hempty => rw [hempty.resolve_right hsize, List.flatten_nil]
  | case2 l hmore ih => rw [List.flatten_cons, ih, List.take_append_drop]

/-- A file has exact bytes. -/
def BlobDisk.Has (disk : BlobDisk) (inode : ℕ) (bytes : Bytes) : Prop :=
  ∃ file, disk.files[inode]? = some file ∧ file.bytes = bytes

omit [Blake3] in
lemma BlobDisk.Has.grows {before later : BlobDisk} {inode : ℕ} (hgrows : before.Grows later)
    (h : before.Has inode bytes) : later.Has inode bytes := by
  obtain ⟨file, hfile, hbytes⟩ := h
  obtain ⟨synced, hlater, -⟩ := hgrows.files inode file hfile
  exact ⟨_, hlater, hbytes⟩

omit [Blake3] in
lemma BlobDisk.Has.bytesOf {inode : ℕ} (h : disk.Has inode bytes) :
    FileRequest.bytesOf disk inode = bytes := by
  obtain ⟨file, hfile, hbytes⟩ := h
  unfold FileRequest.bytesOf
  rw [hfile]
  exact hbytes

/-- A file that compares equal holds what is expected. -/
lemma safe_compareChunks {inode : ℕ} (h : disk.Has inode bytes) (offset : ℕ)
    (expected : List Bytes) :
    Safe (fun same _ => same = true → bytes.drop offset = expected.flatten)
      (compareChunks inode offset expected) disk := by
  induction expected generalizing disk offset with
  | nil =>
    refine safe_ask (fun _ _ => trivial) fun later reply hlater hreply => ?_
    intro hsame
    simp only [FileRequest.answer, (h.grows hlater).bytesOf, Except.ok.injEq] at hreply
    rw [hsame, decide_eq_true_iff] at hreply
    exact hreply
  | cons chunk rest ih =>
    unfold compareChunks
    apply sound_bind
    refine safe_ask (fun _ _ => trivial) fun later target hlater hreply => ?_
    simp only [FileRequest.answer, (h.grows hlater).bytesOf] at hreply
    split at hreply
    · cases hreply
    · cases hreply
      split
      · exact fun hsame => by cases hsame
      · next heq =>
        have hnext := h.grows (hlater.trans (.effect later (.readExact inode offset chunk.length)))
        apply (ih hnext (offset + chunk.length)).mono
        intro same _ hsame htrue
        rw [List.flatten_cons, ← hsame htrue, ← List.drop_drop]
        rw [not_not] at heq
        conv_lhs => rw [← List.take_append_drop chunk.length (bytes.drop offset), heq]

lemma safe_sameBlobBytes {inode : ℕ} (h : disk.Has inode bytes) (expected : Bytes) :
    Safe (fun same _ => same = true → bytes = expected) (sameBlobBytes inode expected) disk := by
  unfold sameBlobBytes
  apply sound_bind
  refine safe_ask (fun _ _ => trivial) fun later length hlater _ => ?_
  split
  · exact fun hsame => by cases hsame
  · have hnext := h.grows (hlater.trans (.effect later (.length inode)))
    apply (safe_compareChunks hnext 0 (chunks 8192 expected)).mono
    intro same _ hsame htrue
    rw [← List.drop_zero (l := bytes), hsame htrue, flatten_chunks (by decide)]

omit [Blake3] in
/-- A named file that is synchronized. -/
lemma BlobDisk.holds_sync {inode : ℕ} (hname : disk.names name = some inode)
    (h : disk.Has inode bytes) : (disk.sync inode).Holds name bytes := by
  obtain ⟨file, hfile, hbytes⟩ := h
  refine ⟨inode, { file with synced := true }, hname, ?_, hbytes, rfl⟩
  show (disk.files.modify inode _)[inode]? = _
  rw [List.getElem?_modify, hfile]
  simp

omit [Blake3] in
/-- The entry of a named file is synchronized. -/
lemma BlobDisk.keeps_syncEntries (h : disk.Holds name bytes) :
    disk.syncEntries.Keeps name bytes := by
  refine ⟨h.grows (.syncEntries disk), ?_⟩
  obtain ⟨inode, _, hname, _⟩ := h
  show (disk.durable name || (disk.names name).isSome) = true
  rw [hname, Option.isSome_some, Bool.or_true]

/-- An existing file that is verified is kept. -/
lemma safe_verifyExisting (name : Digest) (data : Bytes) :
    Safe (fun existing later => existing = true → later.Keeps name data)
      (verifyExisting name data) disk := by
  unfold verifyExisting
  apply sound_bind
  refine safe_ask (fun _ _ => trivial) fun before found _ hfound => ?_
  simp only [FileRequest.answer, Except.ok.injEq] at hfound
  subst hfound
  cases hname : before.names name with
  | none => exact fun hexisting => by cases hexisting
  | some inode =>
    -- the name stands for a file of the directory
    obtain ⟨contents, hfile⟩ : ∃ contents, before.Has inode contents :=
      ⟨_, _, List.getElem?_eq_getElem (before.named name inode hname), rfl⟩
    have hstable : ∀ first second : BlobDisk, first.Grows second →
        first.names name = some inode ∧ first.Has inode contents →
        second.names name = some inode ∧ second.Has inode contents :=
      fun _ _ hgrows h => ⟨hgrows.names name inode h.1, h.2.grows hgrows⟩
    dsimp only
    apply sound_bind
    have hcompare := (safe_sameBlobBytes hfile data).frame hstable ⟨hname, hfile⟩
    apply hcompare.mono
    rintro same current ⟨hsame, hcurrent⟩
    cases same with
    | false => trivial
    | true =>
      rw [hsame rfl] at hcurrent hstable
      show Safe _
        (ask (.syncFile inode) >>= fun _ => ask .syncDir >>= fun _ => Pure.pure true) current
      apply sound_bind
      refine safe_ask (fun _ _ => trivial) fun first _ hfirst _ => ?_
      obtain ⟨hnamed, hhas⟩ := hstable current first hfirst hcurrent
      have hholds : (first.sync inode).Holds name data := BlobDisk.holds_sync hnamed hhas
      apply sound_bind
      refine safe_ask (fun _ _ => trivial) fun second _ hsecond _ => ?_
      exact fun _ => BlobDisk.keeps_syncEntries (hholds.grows hsecond)

/-! ## Publication -/

omit [Blake3] in
lemma BlobDisk.staged_add : (disk.add ⟨bytes, true, false⟩).Staged disk.files.length bytes := by
  refine ⟨false, ?_⟩
  show (disk.files ++ [_])[disk.files.length]? = _
  simp

/-- A staged file whose contents are synced. -/
def BlobDisk.Ready (disk : BlobDisk) (inode : ℕ) (bytes : Bytes) : Prop :=
  disk.files[inode]? = some ⟨bytes, true, true⟩

omit [Blake3] in
lemma BlobDisk.Ready.grows {before later : BlobDisk} {inode : ℕ} (hgrows : before.Grows later)
    (h : before.Ready inode bytes) : later.Ready inode bytes := by
  obtain ⟨synced, hlater, hkept⟩ := hgrows.files inode _ h
  rw [hkept rfl] at hlater
  exact hlater

omit [Blake3] in
lemma BlobDisk.Staged.sync {inode : ℕ} (h : disk.Staged inode bytes) :
    (disk.sync inode).Ready inode bytes := by
  obtain ⟨synced, hfile⟩ := h
  show (disk.files.modify inode _)[inode]? = _
  rw [List.getElem?_modify, hfile]
  simp

omit [Blake3] in
/-- A ready file that gets its name. -/
lemma BlobDisk.Ready.link {inode : ℕ} (h : disk.Ready inode bytes)
    (hfree : disk.names name = none) : (disk.link inode name).Holds name bytes := by
  have hinode : inode < disk.files.length := (List.getElem?_eq_some_iff.mp h).1
  unfold BlobDisk.link
  rw [dif_pos ⟨hfree, hinode⟩]
  exact ⟨inode, _, if_pos rfl, h, rfl, rfl⟩

/-- Staging writes the bytes. -/
lemma safe_prepare (data : Bytes) :
    Safe (fun inode later => later.Staged inode data) (ask (.prepare data)) disk := by
  refine safe_ask (fun _ _ => trivial) fun later inode _ hinode => ?_
  simp only [FileRequest.answer, Except.ok.injEq] at hinode
  rw [← hinode]
  exact BlobDisk.staged_add

lemma safe_syncFile {inode : ℕ} (h : disk.Staged inode bytes) :
    Safe (fun _ later => later.Ready inode bytes) (ask (.syncFile inode)) disk :=
  safe_ask (fun _ _ => trivial) fun _ _ hlater _ => (h.grows hlater).sync

/-- A link that succeeds gives the file its name. -/
lemma safe_hardLink {inode : ℕ} (h : disk.Ready inode bytes) (hname : Blake3.hash bytes = name) :
    Safe (fun published later => published = true → later.Holds name bytes)
      (ask (.hardLink inode name)) disk := by
  apply safe_ask
  · intro later hlater
    exact ⟨bytes, ⟨true, h.grows hlater⟩, hname⟩
  · intro later published hlater hpublished htrue
    simp only [FileRequest.answer, Except.ok.injEq] at hpublished
    rw [htrue, Option.isNone_iff_eq_none] at hpublished
    exact (h.grows hlater).link hpublished

/-- What has its name before the directory is synchronized is kept after it. -/
lemma safe_keepEntries (store : BlobStore) {held : List (Digest × Bytes)}
    (h : ∀ entry ∈ held, disk.Holds entry.1 entry.2) :
    Safe (fun _ later => ∀ entry ∈ held, later.Keeps entry.1 entry.2)
      store.syncDirectoryTree disk := by
  have hstable : ∀ first second : BlobDisk, first.Grows second →
      (∀ entry ∈ held, first.Holds entry.1 entry.2) →
      ∀ entry ∈ held, second.Holds entry.1 entry.2 :=
    fun _ _ hgrows h entry hentry => (h entry hentry).grows hgrows
  apply ((safe_syncDirectoryTree store).frame hstable h).mono
  rintro _ later ⟨hdurable, hheld⟩ entry hentry
  obtain ⟨inode, _, hname, _⟩ := h entry hentry
  exact ⟨hheld entry hentry, hdurable entry.1 inode hname⟩

/-- A new blob is published with its name. -/
lemma safe_publishNew (store : BlobStore) (data : Bytes) :
    Safe (fun published later => published = true → later.Keeps (Blake3.hash data) data)
      (store.publishNew (Blake3.hash data) data) disk := by
  unfold BlobStore.publishNew
  apply sound_bind
  apply (safe_prepare data).mono
  intro inode staged hstaged
  apply sound_bind
  apply (safe_syncFile hstaged).mono
  intro _ ready hready
  apply sound_bind
  apply (safe_hardLink hready rfl).mono
  intro published linked hlinked
  cases published with
  | false => exact fun hpublished => by cases hpublished
  | true =>
    show Safe _ (store.syncDirectoryTree >>= fun _ => Pure.pure true) linked
    apply sound_bind
    have hheld : ∀ entry ∈ [(Blake3.hash data, data)], linked.Holds entry.1 entry.2 := by
      intro entry hentry
      rw [List.mem_singleton.mp hentry]
      exact hlinked rfl
    apply (safe_keepEntries store hheld).mono
    intro _ later hkept _
    exact hkept (Blake3.hash data, data) (List.mem_singleton_self _)

/-! ## Batches -/

/-- The staged files of a batch, each under the address of its bytes. -/
def StagedBatch (disk : BlobDisk) (pending : List PendingBlob) : Prop :=
  ∀ blob ∈ pending, disk.Staged blob.inode blob.bytes ∧ Blake3.hash blob.bytes = blob.name

/-- Every entry is kept already, or waits for its publication. -/
def Covered (disk : BlobDisk) (pending : List PendingBlob) (entries : List (Digest × Bytes)) :
    Prop :=
  ∀ entry ∈ entries, disk.Keeps entry.1 entry.2
    ∨ ∃ blob ∈ pending, blob.name = entry.1 ∧ blob.bytes = entry.2

lemma StagedBatch.grows {before later : BlobDisk} {pending : List PendingBlob}
    (hgrows : before.Grows later) (h : StagedBatch before pending) : StagedBatch later pending :=
  fun blob hblob => ⟨(h blob hblob).1.grows hgrows, (h blob hblob).2⟩

omit [Blake3] in
lemma Covered.grows {before later : BlobDisk} {pending : List PendingBlob}
    {entries : List (Digest × Bytes)} (hgrows : before.Grows later)
    (h : Covered before pending entries) : Covered later pending entries :=
  fun entry hentry => (h entry hentry).imp (fun hkept => hkept.grows hgrows) id

omit [Blake3] in
/-- An entry that was kept or staged is covered, beside those before it. -/
lemma Covered.cons {pending : List PendingBlob} {entries : List (Digest × Bytes)}
    (h : Covered disk pending entries) (more : List PendingBlob)
    (hentry : disk.Keeps name bytes
      ∨ ∃ blob ∈ pending ++ more, blob.name = name ∧ blob.bytes = bytes) :
    Covered disk (pending ++ more) ((name, bytes) :: entries) := by
  intro entry hmem
  rcases List.mem_cons.mp hmem with rfl | hold
  · exact hentry
  · rcases h entry hold with hkept | ⟨blob, hblob, hsame⟩
    · exact .inl hkept
    · exact .inr ⟨blob, List.mem_append_left _ hblob, hsame⟩

/-- Every entry of a batch comes to be kept or staged. -/
lemma safe_stageBatch {unique entries : List (Digest × Bytes)} {pending : List PendingBlob}
    (hnames : ∀ entry ∈ entries, Blake3.hash entry.2 = entry.1)
    (hpending : StagedBatch disk pending) (hunique : Covered disk pending unique) :
    Safe (fun result later => StagedBatch later result ∧ Covered later result unique
      ∧ Covered later result entries) (stageBatch unique pending entries) disk := by
  induction entries generalizing disk unique pending with
  | nil => exact ⟨hpending, hunique, fun entry hentry => by cases hentry⟩
  | cons entry rest ih =>
    obtain ⟨name, bytes⟩ := entry
    have hname : Blake3.hash bytes = name := hnames (name, bytes) List.mem_cons_self
    have hrest : ∀ entry ∈ rest, Blake3.hash entry.2 = entry.1 :=
      fun entry hentry => hnames entry (List.mem_cons_of_mem _ hentry)
    -- what the rest needs once this entry is covered
    have hgoes : ∀ (current : BlobDisk) (next : List PendingBlob), StagedBatch current next →
        Covered current next ((name, bytes) :: unique) →
        Safe (fun result later => StagedBatch later result ∧ Covered later result unique
          ∧ Covered later result ((name, bytes) :: rest))
          (stageBatch ((name, bytes) :: unique) next rest) current := by
      intro current next hstaged hcovered
      apply (ih hrest hstaged hcovered).mono
      rintro result later ⟨hresult, hseen, hlater⟩
      refine ⟨hresult, fun entry hentry => hseen entry (List.mem_cons_of_mem _ hentry), ?_⟩
      intro entry hentry
      rcases List.mem_cons.mp hentry with rfl | hold
      · exact hseen _ List.mem_cons_self
      · exact hlater entry hold
    unfold stageBatch
    split
    · next previous hprevious =>
      split
      · trivial
      · next hsame =>
        rw [not_not] at hsame
        subst hsame
        have hseen : (name, previous) ∈ unique := by
          obtain ⟨before, after, hsplit, -⟩ := List.lookup_eq_some_iff.mp hprevious
          rw [hsplit]
          simp
        apply (ih hrest hpending hunique).mono
        rintro result later ⟨hresult, hcovered, hlater⟩
        refine ⟨hresult, hcovered, fun entry hentry => ?_⟩
        rcases List.mem_cons.mp hentry with rfl | hold
        · exact hcovered _ hseen
        · exact hlater entry hold
    · have hstable : ∀ first second : BlobDisk, first.Grows second →
          StagedBatch first pending ∧ Covered first pending unique →
          StagedBatch second pending ∧ Covered second pending unique :=
        fun _ _ hgrows h => ⟨h.1.grows hgrows, h.2.grows hgrows⟩
      apply sound_bind
      apply ((safe_verifyExisting name bytes).frame hstable ⟨hpending, hunique⟩).mono
      rintro existing current ⟨hkept, hstaged, hcovered⟩
      cases existing with
      | true =>
        have hnext := hcovered.cons [] (.inl (hkept rfl))
        rw [List.append_nil] at hnext
        exact hgoes current pending hstaged hnext
      | false =>
        show Safe _ (ask (.prepare bytes) >>= fun inode =>
          stageBatch ((name, bytes) :: unique) (pending ++ [⟨inode, name, bytes⟩]) rest) current
        apply sound_bind
        apply ((safe_prepare bytes).frame hstable ⟨hstaged, hcovered⟩).mono
        rintro inode later ⟨hnew, hold, hseen⟩
        refine hgoes later _ ?_ (hseen.cons _ (.inr ⟨⟨inode, name, bytes⟩, ?_, rfl, rfl⟩))
        · intro blob hblob
          rcases List.mem_append.mp hblob with hblob | hblob
          · exact hold blob hblob
          · rw [List.mem_singleton.mp hblob]
            exact ⟨hnew, hname⟩
        · exact List.mem_append_right _ (List.mem_singleton_self _)

/-- Workers that all succeed have synchronized their groups. -/
lemma safe_runWorkers {groups : List (List PendingBlob)}
    (h : ∀ group ∈ groups, StagedBatch disk group) :
    Safe (fun results later => (∀ result ∈ results, result = .ok ()) →
      ∀ group ∈ groups, ∀ blob ∈ group, later.Ready blob.inode blob.bytes)
      (runWorkers groups) disk := by
  induction groups generalizing disk with
  | nil => exact fun _ group hgroup => by cases hgroup
  | cons group rest ih =>
    have hstable : ∀ first second : BlobDisk, first.Grows second →
        (∀ other ∈ group :: rest, StagedBatch first other) →
        ∀ other ∈ group :: rest, StagedBatch second other :=
      fun _ _ hgrows h other hother => (h other hother).grows hgrows
    have hspawn : Safe (fun _ later => ∀ other ∈ group :: rest, StagedBatch later other)
        (ask .spawn) disk := safe_step (fun _ => trivial) hstable h
    unfold runWorkers
    apply sound_bind
    apply hspawn.mono
    intro _ started hstarted
    have hgroup : Safe (fun _ later => ∀ blob ∈ group, later.Ready blob.inode blob.bytes)
        (forM group fun blob => ask (.syncFile blob.inode)) started := by
      have hturn : ∀ (done : List PendingBlob) blob (current : BlobDisk), done ++ [blob] <+: group →
          (StagedBatch current group ∧ ∀ blob ∈ done, current.Ready blob.inode blob.bytes) →
          Safe (fun _ later => StagedBatch later group
            ∧ ∀ other ∈ done ++ [blob], later.Ready other.inode other.bytes)
            (ask (.syncFile blob.inode)) current := by
        rintro done blob current ⟨tail, hsplit⟩ ⟨hstaged, hready⟩
        have hmem : blob ∈ group := by
          rw [← hsplit]
          simp
        have hkeep : ∀ first second : BlobDisk, first.Grows second →
            StagedBatch first group ∧ (∀ blob ∈ done, first.Ready blob.inode blob.bytes) →
            StagedBatch second group ∧ ∀ blob ∈ done, second.Ready blob.inode blob.bytes :=
          fun _ _ hgrows h => ⟨h.1.grows hgrows, fun blob hblob => (h.2 blob hblob).grows hgrows⟩
        apply ((safe_syncFile (hstaged blob hmem).1).frame hkeep ⟨hstaged, hready⟩).mono
        rintro _ later ⟨hnew, hstaged, hready⟩
        refine ⟨hstaged, fun other hother => ?_⟩
        rcases List.mem_append.mp hother with hold | hlast
        · exact hready other hold
        · rw [List.mem_singleton.mp hlast]
          exact hnew
      have hloop : Safe (fun _ later => StagedBatch later group
          ∧ ∀ blob ∈ group, later.Ready blob.inode blob.bytes)
          (forM group fun blob => ask (.syncFile blob.inode)) started := by
        apply sound_forM group fun (done : List PendingBlob) (later : BlobDisk) =>
          StagedBatch later group ∧ ∀ blob ∈ done, later.Ready blob.inode blob.bytes
        · exact hturn
        · exact ⟨hstarted group List.mem_cons_self, fun blob hblob => by cases hblob⟩
      apply hloop.mono
      intro _ later hlater
      exact hlater.2
    apply sound_bind
    apply ((sound_attempt hgroup).frame hstable hstarted).mono
    rintro result current ⟨hresult, hcurrent⟩
    apply sound_bind
    have hdone : ∀ first second : BlobDisk, first.Grows second →
        (∀ a, result = .ok a → ∀ blob ∈ group, first.Ready blob.inode blob.bytes) →
        ∀ a, result = .ok a → ∀ blob ∈ group, second.Ready blob.inode blob.bytes :=
      fun _ _ hgrows h a ha blob hblob => (h a ha blob hblob).grows hgrows
    have hrest : ∀ other ∈ rest, StagedBatch current other :=
      fun other hother => hcurrent other (List.mem_cons_of_mem _ hother)
    apply ((ih hrest).frame hdone hresult).mono
    rintro results later ⟨hresults, hfirst⟩ hall other hother
    rcases List.mem_cons.mp hother with rfl | hold
    · exact hfirst () (hall result List.mem_cons_self)
    · exact hresults (fun found hfound => hall found (List.mem_cons_of_mem _ hfound)) other hold

lemma safe_syncBatch {pending : List PendingBlob} (h : StagedBatch disk pending) :
    Safe (fun _ later => ∀ blob ∈ pending, later.Ready blob.inode blob.bytes)
      (syncBatch pending) disk := by
  have hflatten : (chunks (max ((pending.length + 7) / 8) 1) pending).flatten = pending :=
    flatten_chunks (by omega) pending
  have hgroups : ∀ group ∈ chunks (max ((pending.length + 7) / 8) 1) pending,
      StagedBatch disk group := by
    intro group hgroup blob hblob
    apply h blob
    rw [← hflatten]
    exact List.mem_flatten.mpr ⟨group, hgroup, hblob⟩
  unfold syncBatch
  apply sound_bind
  apply (safe_runWorkers hgroups).mono
  intro results current hcurrent
  have hsettled : Safe (fun _ _ => ∀ result ∈ results, result = .ok ()) (forM results settle)
      current := by
    apply sound_forM results fun (done : List (Except IoError Unit)) (_ : BlobDisk) =>
      ∀ result ∈ done, result = .ok ()
    · intro done result later _ hdone
      cases result with
      | error e => trivial
      | ok value =>
        intro other hother
        rcases List.mem_append.mp hother with hold | hlast
        · exact hdone other hold
        · exact List.mem_singleton.mp hlast
    · intro result hresult
      cases hresult
  have hstable : ∀ first second : BlobDisk, first.Grows second →
      ((∀ result ∈ results, result = .ok ()) →
        ∀ group ∈ chunks (max ((pending.length + 7) / 8) 1) pending, ∀ blob ∈ group,
          first.Ready blob.inode blob.bytes) →
      (∀ result ∈ results, result = .ok ()) →
        ∀ group ∈ chunks (max ((pending.length + 7) / 8) 1) pending, ∀ blob ∈ group,
          second.Ready blob.inode blob.bytes :=
    fun _ _ hgrows h hall group hgroup blob hblob => (h hall group hgroup blob hblob).grows hgrows
  apply (hsettled.frame hstable hcurrent).mono
  rintro _ later ⟨hall, hready⟩ blob hblob
  rw [← hflatten] at hblob
  obtain ⟨group, hgroup, hmem⟩ := List.mem_flatten.mp hblob
  exact hready hall group hgroup blob hmem

/-- Each blob of a batch is kept, or linked now. -/
lemma safe_linkBatch {pending : List PendingBlob} (linked : Bool)
    (h : ∀ blob ∈ pending, disk.Ready blob.inode blob.bytes ∧ Blake3.hash blob.bytes = blob.name) :
    Safe (fun result later => (linked = true → result = true) ∧ ∀ blob ∈ pending,
      later.Keeps blob.name blob.bytes ∨ result = true ∧ later.Holds blob.name blob.bytes)
      (linkBatch linked pending) disk := by
  induction pending generalizing disk linked with
  | nil => exact ⟨id, fun blob hblob => by cases hblob⟩
  | cons blob rest ih =>
    obtain ⟨hready, hname⟩ := h blob List.mem_cons_self
    have hrest : ∀ other ∈ rest,
        disk.Ready other.inode other.bytes ∧ Blake3.hash other.bytes = other.name :=
      fun other hother => h other (List.mem_cons_of_mem _ hother)
    have hstable : ∀ first second : BlobDisk, first.Grows second →
        (∀ other ∈ rest, first.Ready other.inode other.bytes
          ∧ Blake3.hash other.bytes = other.name) →
        ∀ other ∈ rest, second.Ready other.inode other.bytes
          ∧ Blake3.hash other.bytes = other.name :=
      fun _ _ hgrows h other hother => ⟨(h other hother).1.grows hgrows, (h other hother).2⟩
    unfold linkBatch
    apply sound_bind
    apply ((safe_hardLink hready hname).frame hstable hrest).mono
    rintro published current ⟨hlinked, hcurrent⟩
    cases published with
    | true =>
      have hholds : current.Holds blob.name blob.bytes := hlinked rfl
      have hkeep : ∀ first second : BlobDisk, first.Grows second →
          first.Holds blob.name blob.bytes → second.Holds blob.name blob.bytes :=
        fun _ _ hgrows h => h.grows hgrows
      apply ((ih true hcurrent).frame hkeep hholds).mono
      rintro result later ⟨⟨htrue, hlater⟩, hfirst⟩
      refine ⟨fun _ => htrue rfl, fun other hother => ?_⟩
      rcases List.mem_cons.mp hother with rfl | hold
      · exact .inr ⟨htrue rfl, hfirst⟩
      · exact hlater other hold
    | false =>
      show Safe _ (verifyExisting blob.name blob.bytes >>= fun existing =>
        if !existing then .throw _ else linkBatch linked rest) current
      apply sound_bind
      apply ((safe_verifyExisting blob.name blob.bytes).frame hstable hcurrent).mono
      rintro existing verified ⟨hkept, hverified⟩
      cases existing with
      | false => trivial
      | true =>
        have hkeep : ∀ first second : BlobDisk, first.Grows second →
            first.Keeps blob.name blob.bytes → second.Keeps blob.name blob.bytes :=
          fun _ _ hgrows h => h.grows hgrows
        apply ((ih linked hverified).frame hkeep (hkept rfl)).mono
        rintro result later ⟨⟨htrue, hlater⟩, hfirst⟩
        refine ⟨htrue, fun other hother => ?_⟩
        rcases List.mem_cons.mp hother with rfl | hold
        · exact .inl hfirst
        · exact hlater other hold

/-- A published batch is kept, whoever has published its parts. -/
lemma safe_publishBatch (store : BlobStore) {entries : List (Digest × Bytes)}
    (hnames : ∀ entry ∈ entries, Blake3.hash entry.2 = entry.1) :
    Safe (fun _ later => ∀ entry ∈ entries, later.Keeps entry.1 entry.2)
      (store.publishBatch entries) disk := by
  have hempty : StagedBatch disk [] := fun blob hblob => by cases hblob
  have hunseen : Covered disk [] [] := fun entry hentry => by cases hentry
  unfold BlobStore.publishBatch
  apply sound_bind
  apply (safe_stageBatch hnames hempty hunseen).mono
  rintro pending staged ⟨hpending, -, hcovered⟩
  have hstable : ∀ first second : BlobDisk, first.Grows second →
      StagedBatch first pending ∧ Covered first pending entries →
      StagedBatch second pending ∧ Covered second pending entries :=
    fun _ _ hgrows h => ⟨h.1.grows hgrows, h.2.grows hgrows⟩
  apply sound_bind
  apply ((safe_syncBatch hpending).frame hstable ⟨hpending, hcovered⟩).mono
  rintro _ synced ⟨hready, hsame, hcovered⟩
  have hlinkable : ∀ blob ∈ pending,
      synced.Ready blob.inode blob.bytes ∧ Blake3.hash blob.bytes = blob.name :=
    fun blob hblob => ⟨hready blob hblob, (hsame blob hblob).2⟩
  have hkeep : ∀ first second : BlobDisk, first.Grows second →
      Covered first pending entries → Covered second pending entries :=
    fun _ _ hgrows h => h.grows hgrows
  apply sound_bind
  apply ((safe_linkBatch false hlinkable).frame hkeep hcovered).mono
  rintro linked current ⟨⟨-, hblobs⟩, hcovered⟩
  -- what is kept stays, and what was linked is kept once the directory is synchronized
  have hentries : ∀ entry ∈ entries, current.Keeps entry.1 entry.2
      ∨ linked = true ∧ current.Holds entry.1 entry.2 := by
    intro entry hentry
    rcases hcovered entry hentry with hkept | ⟨blob, hblob, hname, hbytes⟩
    · exact .inl hkept
    · rw [← hname, ← hbytes]
      exact hblobs blob hblob
  cases linked with
  | false =>
    intro entry hentry
    rcases hentries entry hentry with hkept | ⟨hlinked, -⟩
    · exact hkept
    · cases hlinked
  | true =>
    apply safe_keepEntries store
    intro entry hentry
    rcases hentries entry hentry with hkept | ⟨-, hheld⟩
    · exact hkept.1
    · exact hheld

/-! ## Calls -/

/-- Every payload is kept under its address. -/
def KeptAll (disk : BlobDisk) (payloads : List Bytes) : Prop :=
  ∀ payload ∈ payloads, disk.Keeps (Blake3.hash payload) payload

lemma KeptAll.grows {before later : BlobDisk} {payloads : List Bytes}
    (hgrows : before.Grows later) (h : KeptAll before payloads) : KeptAll later payloads :=
  fun payload hpayload => (h payload hpayload).grows hgrows

lemma safe_write (store : BlobStore) (data : Bytes) :
    Safe (fun _ later => KeptAll later [data]) (store.write data) disk := by
  have hone : ∀ later : BlobDisk, later.Keeps (Blake3.hash data) data → KeptAll later [data] := by
    intro later hkept payload hpayload
    rw [List.mem_singleton.mp hpayload]
    exact hkept
  unfold BlobStore.write
  apply sound_bind
  apply (safe_createDirAll store).mono
  intro _ first _
  apply sound_bind
  apply (safe_verifyExisting (Blake3.hash data) data).mono
  intro existing second hexisting
  cases existing with
  | true => exact hone second (hexisting rfl)
  | false =>
    show Safe _ (store.publishNew (Blake3.hash data) data >>= fun published =>
      if published then Pure.pure () else verifyExisting (Blake3.hash data) data >>= fun winner =>
        if winner then Pure.pure () else .throw _) second
    apply sound_bind
    apply (safe_publishNew store data).mono
    intro published third hpublished
    cases published with
    | true => exact hone third (hpublished rfl)
    | false =>
      show Safe _ (verifyExisting (Blake3.hash data) data >>= fun winner =>
        if winner then Pure.pure () else .throw _) third
      apply sound_bind
      apply (safe_verifyExisting (Blake3.hash data) data).mono
      intro winner last hwinner
      cases winner with
      | true => exact hone last (hwinner rfl)
      | false => trivial

lemma safe_writeBatch (store : BlobStore) (payloads : List Bytes) :
    Safe (fun _ later => KeptAll later payloads) (store.writeBatch payloads) disk := by
  unfold BlobStore.writeBatch
  split
  · next hempty =>
    intro payload hpayload
    rw [hempty] at hpayload
    cases hpayload
  · apply sound_bind
    apply (safe_createDirAll store).mono
    intro _ current _
    have hcohorts : Safe (fun _ later => ∀ cohort ∈ chunks 64 payloads, KeptAll later cohort)
        (forM (chunks 64 payloads) fun cohort =>
          store.publishBatch (cohort.map fun bytes => (Blake3.hash bytes, bytes))) current := by
      apply sound_forM (chunks 64 payloads) fun (done : List (List Bytes)) (later : BlobDisk) =>
        ∀ cohort ∈ done, KeptAll later cohort
      · intro done cohort before _ hdone
        have hstable : ∀ first second : BlobDisk, first.Grows second →
            (∀ cohort ∈ done, KeptAll first cohort) → ∀ cohort ∈ done, KeptAll second cohort :=
          fun _ _ hgrows h cohort hcohort => (h cohort hcohort).grows hgrows
        have hnames : ∀ entry ∈ cohort.map fun bytes => (Blake3.hash bytes, bytes),
            Blake3.hash entry.2 = entry.1 := by
          intro entry hentry
          obtain ⟨bytes, -, rfl⟩ := List.mem_map.mp hentry
          rfl
        apply ((safe_publishBatch store hnames).frame hstable hdone).mono
        rintro _ later ⟨hkept, hlater⟩ other hother
        rcases List.mem_append.mp hother with hold | hlast
        · exact hlater other hold
        · intro payload hpayload
          rw [List.mem_singleton.mp hlast] at hpayload
          exact hkept _ (List.mem_map.mpr ⟨payload, hpayload, rfl⟩)
      · intro cohort hcohort
        cases hcohort
    apply hcohorts.mono
    intro _ later hlater payload hpayload
    rw [← flatten_chunks (by decide : 64 ≠ 0) payloads] at hpayload
    obtain ⟨cohort, hcohort, hmem⟩ := List.mem_flatten.mp hpayload
    exact hlater cohort hcohort payload hmem

/-- The references that a call returns. -/
def Returns : BlobCall → List BlobRef → Prop
  | .write _, references => references = []
  | .put bytes, references => [bytes].mapM BlobStore.reference = .ok references
  | .putBatch payloads, references => payloads.mapM BlobStore.reference = .ok references

/-- Every reference that is returned was made of a payload. -/
lemma Returns.made {call : BlobCall} {references : List BlobRef} (h : Returns call references)
    {reference : BlobRef} (hmem : reference ∈ references) :
    ∃ payload ∈ call.payloads, BlobStore.reference payload = .ok reference := by
  have hmade : ∀ (payloads : List Bytes) (made : List BlobRef),
      payloads.mapM BlobStore.reference = .ok made → reference ∈ made →
      ∃ payload ∈ payloads, BlobStore.reference payload = .ok reference := by
    intro payloads
    induction payloads with
    | nil =>
      intro made hmade hreference
      cases hmade
      cases hreference
    | cons payload rest ih =>
      intro made hmade hreference
      rw [List.mapM_cons] at hmade
      obtain ⟨first, hfirst, hmade⟩ := Fallible.bind_eq_ok.mp hmade
      obtain ⟨others, hothers, hmade⟩ := Fallible.bind_eq_ok.mp hmade
      cases hmade
      rcases List.mem_cons.mp hreference with rfl | hold
      · exact ⟨payload, List.mem_cons_self, hfirst⟩
      · obtain ⟨found, hfound, hsame⟩ := ih others hothers hold
        exact ⟨found, List.mem_cons_of_mem _ hfound, hsame⟩
  cases call with
  | write data =>
    rw [show references = [] from h] at hmem
    cases hmem
  | put bytes => exact hmade [bytes] references h hmem
  | putBatch payloads => exact hmade payloads references h hmem

/-- What a call has achieved when it returns. -/
def Achieves (call : BlobCall) (references : List BlobRef) (disk : BlobDisk) : Prop :=
  KeptAll disk call.payloads ∧ Returns call references

lemma safe_code (store : BlobStore) (call : BlobCall) :
    Safe (Achieves call) (call.code store) disk := by
  cases call with
  | write data =>
    show Safe _ (store.write data >>= fun _ => Pure.pure []) disk
    apply sound_bind
    apply (safe_write store data).mono
    intro _ later hkept
    exact ⟨hkept, rfl⟩
  | put bytes =>
    show Safe _ (store.put bytes >>= fun reference => Pure.pure [reference]) disk
    apply sound_bind
    unfold BlobStore.put
    split
    · trivial
    · next reference hreference =>
      apply sound_bind
      apply (safe_write store bytes).mono
      intro _ later hkept
      refine ⟨hkept, ?_⟩
      show [bytes].mapM BlobStore.reference = .ok [reference]
      rw [List.mapM_cons, hreference]
      rfl
  | putBatch payloads =>
    show Safe _ (store.putBatch payloads) disk
    unfold BlobStore.putBatch
    split
    · trivial
    · next references hreferences =>
      apply sound_bind
      apply (safe_writeBatch store payloads).mono
      intro _ later hkept
      exact ⟨hkept, hreferences⟩

/-! ## Runs -/

/-- The files that the store has put at final names hold the bytes that their names are the hashes
of. -/
def Addressed (disk : BlobDisk) : Prop :=
  ∀ name file, disk.file name = some file → file.staged = true → Blake3.hash file.bytes = name

/-- The invariant of a run: every call goes on safely from here. -/
structure Sane (world : BlobWorld) : Prop where
  addressed : Addressed world.disk
  calls : ∀ entry ∈ world.calls, Safe (Achieves entry.1) entry.2 world.disk

lemma achieves_stable {call : BlobCall} (references : List BlobRef) (before later : BlobDisk)
    (hgrows : before.Grows later) (h : Achieves call references before) :
    Achieves call references later := ⟨h.1.grows hgrows, h.2⟩

/-- The calls go on safely from a disk that has grown. -/
lemma Sane.grows {world : BlobWorld} (h : Sane world) {later : BlobDisk}
    (hgrows : world.disk.Grows later) :
    ∀ entry ∈ world.calls, Safe (Achieves entry.1) entry.2 later :=
  fun entry hentry => (h.calls entry hentry).grows achieves_stable hgrows

/-- A disk with the same names, and files that are the same but for their synchronization. -/
lemma Addressed.of_grows {before later : BlobDisk} (h : Addressed before)
    (hgrows : before.Grows later) (hnames : later.names = before.names) : Addressed later := by
  intro name file hfile hstaged
  unfold BlobDisk.file at hfile
  obtain ⟨inode, hname, hinode⟩ := Option.bind_eq_some_iff.mp hfile
  rw [hnames] at hname
  obtain ⟨old, hold⟩ : ∃ old, before.files[inode]? = some old :=
    ⟨_, List.getElem?_eq_getElem (before.named name inode hname)⟩
  obtain ⟨synced, hlater, -⟩ := hgrows.files inode old hold
  have hbefore : before.file name = some old := by
    unfold BlobDisk.file
    rw [hname]
    exact hold
  rw [hinode, Option.some.injEq] at hlater
  rw [hlater] at hstaged ⊢
  exact h name old hbefore hstaged

/-- A link gives a name to one file. -/
lemma Addressed.link (h : Addressed disk) {inode : ℕ}
    (hfile : ∀ file, disk.files[inode]? = some file → file.staged = true →
      Blake3.hash file.bytes = name) : Addressed (disk.link inode name) := by
  unfold BlobDisk.link
  split
  · intro other file hother hstaged
    unfold BlobDisk.file at hother
    obtain ⟨found, hfound, hinode⟩ := Option.bind_eq_some_iff.mp hother
    dsimp only at hfound hinode
    split at hfound
    · next heq =>
      cases hfound
      rw [heq]
      exact hfile file hinode hstaged
    · apply h other file _ hstaged
      unfold BlobDisk.file
      rw [hfound]
      exact hinode
  · exact h

/-- A step that is allowed keeps the addresses. -/
lemma Addressed.run {request : FileRequest} (h : Addressed disk) (hallowed : request.Allowed disk)
    (outcome : FileOutcome) : Addressed (request.run disk outcome).2 := by
  have heffect : Addressed (request.effect disk) := by
    have hgrows := BlobDisk.Grows.effect disk request
    cases request with
    | hardLink inode name =>
      obtain ⟨bytes, ⟨synced, hfile⟩, hname⟩ := hallowed
      apply h.link
      intro file hfound _
      rw [hfile] at hfound
      cases hfound
      exact hname
    | _ => exact h.of_grows hgrows rfl
  cases outcome with
  | succeeds => exact heffect
  | fails error => exact h
  | failsLate error => exact heffect
  | failsPartly error written =>
    cases request with
    | prepare bytes => exact h.of_grows (.add disk _) rfl
    | _ => exact h

/-- Whatever happens, the disk only grows. -/
lemma grows_next (world : BlobWorld) (event : BlobEvent) :
    world.disk.Grows (world.next event).disk := by
  cases event with
  | start store call => exact .refl _
  | step index outcome =>
    unfold BlobWorld.next
    dsimp only
    split
    · next request resume _ => exact .run world.disk request outcome
    · exact .refl _
  | publish name bytes synced => exact (BlobDisk.Grows.add _ _).trans (.link _ _ _)
  | syncFile inode => exact .sync _ _
  | syncDir => exact .syncEntries _

lemma Sane.next {world : BlobWorld} (h : Sane world) (event : BlobEvent) :
    Sane (world.next event) := by
  have hgrows := grows_next world event
  cases event with
  | start store call =>
    refine ⟨h.addressed, fun entry hentry => ?_⟩
    rcases List.mem_append.mp hentry with hold | hnew
    · exact h.calls entry hold
    · rw [List.mem_singleton.mp hnew]
      exact safe_code store call
  | step index outcome =>
    unfold BlobWorld.next at hgrows ⊢
    dsimp only at hgrows ⊢
    split
    · next call request resume hcall =>
      have hcurrent : Safe (Achieves call) (.call request resume) world.disk :=
        h.calls _ (List.mem_of_getElem? hcall)
      obtain ⟨hallowed, hnext⟩ := hcurrent world.disk (.refl _)
      rw [hcall] at hgrows
      refine ⟨h.addressed.run hallowed outcome, fun entry hentry => ?_⟩
      rcases List.mem_or_eq_of_mem_set hentry with hold | rfl
      · exact h.grows hgrows entry hold
      · exact hnext _ _ ⟨outcome, rfl⟩
    · exact h
  | publish name bytes synced =>
    refine ⟨?_, h.grows hgrows⟩
    apply (h.addressed.of_grows (.add world.disk _) rfl).link
    intro file hfile hstaged
    have hnew : (world.disk.files ++ [_])[world.disk.files.length]? = some file := hfile
    simp only [List.getElem?_concat_length, Option.some.injEq] at hnew
    rw [← hnew] at hstaged
    cases hstaged
  | syncFile inode => exact ⟨h.addressed.of_grows (.sync world.disk inode) rfl, h.grows hgrows⟩
  | syncDir => exact ⟨h.addressed.of_grows (.syncEntries world.disk) rfl, h.grows hgrows⟩

/-- A run keeps the invariant, and the disk only grows in it. -/
lemma sane_foldl {world : BlobWorld} (h : Sane world) (events : List BlobEvent) :
    Sane (events.foldl BlobWorld.next world)
      ∧ world.disk.Grows (events.foldl BlobWorld.next world).disk := by
  induction events generalizing world with
  | nil => exact ⟨h, .refl _⟩
  | cons event events ih =>
    obtain ⟨hsane, hgrows⟩ := ih (h.next event)
    exact ⟨hsane, (grows_next world event).trans hgrows⟩

/-- A reference to kept bytes is resolved to them. -/
lemma resolve_kept {reference : BlobRef} (h : disk.Keeps (Blake3.hash bytes) bytes)
    (hreference : BlobStore.reference bytes = .ok reference) :
    BlobStore.resolve disk.get reference = .found bytes := by
  unfold BlobStore.reference at hreference
  split at hreference
  · cases hreference
  · next hlength =>
    cases hreference
    obtain ⟨file, hfile, hbytes, -⟩ := h.1.file
    have hsmall : (UInt32.ofNat bytes.length).toNat = bytes.length := by
      rw [UInt32.toNat_ofNat']
      exact Nat.mod_eq_of_lt (Nat.lt_of_not_le hlength)
    unfold BlobStore.resolve BlobDisk.get
    dsimp only
    rw [hfile, Option.map_some, hbytes]
    dsimp only
    rw [if_pos ⟨hsmall, rfl⟩]

/-- A payload that is durable: it is at its final name with exact bytes, and both its contents and
its entry are synced. -/
def Durable (disk : BlobDisk) (payload : Bytes) : Prop :=
  ∃ file, disk.file (Blake3.hash payload) = some file ∧ file.bytes = payload ∧ file.synced = true
    ∧ disk.durable (Blake3.hash payload) = true

/-- Blob storage is write-once and durable. Whatever any number of writers do, and whichever steps
fail, a final name keeps its bytes; what the store has put there has its name for a hash; and the
payloads of a call that has returned are durable, so that its references are resolved. -/
theorem blob_storage_is_durable (events later : List BlobEvent) :
    (∀ name file, (BlobWorld.run events).disk.file name = some file →
      ∃ kept, (BlobWorld.run (events ++ later)).disk.file name = some kept
        ∧ kept.bytes = file.bytes)
    ∧ Addressed (BlobWorld.run events).disk
    ∧ ∀ call references, (call, .pure references) ∈ (BlobWorld.run events).calls →
        (∀ payload ∈ call.payloads, Durable (BlobWorld.run events).disk payload)
          ∧ Returns call references
          ∧ ∀ reference ∈ references, ∃ payload ∈ call.payloads,
            BlobStore.reference payload = .ok reference
              ∧ BlobStore.resolve (BlobWorld.run events).disk.get reference = .found payload := by
  have hstart : Sane {} := by
    refine ⟨fun name file hfile => ?_, fun entry hentry => ?_⟩
    · cases hfile
    · cases hentry
  obtain ⟨hsane, -⟩ := sane_foldl hstart events
  refine ⟨fun name file hfile => ?_, hsane.addressed, fun call references hmem => ?_⟩
  · have hgrows : (BlobWorld.run events).disk.Grows (BlobWorld.run (events ++ later)).disk := by
      unfold BlobWorld.run
      rw [List.foldl_append]
      exact (sane_foldl hsane later).2
    unfold BlobDisk.file at hfile
    obtain ⟨inode, hname, hinode⟩ := Option.bind_eq_some_iff.mp hfile
    obtain ⟨synced, hkept, -⟩ := hgrows.files inode file hinode
    refine ⟨{ file with synced := synced }, ?_, rfl⟩
    unfold BlobDisk.file
    rw [hgrows.names name inode hname]
    exact hkept
  · obtain ⟨hkept, hreturns⟩ : Achieves call references _ := hsane.calls _ hmem
    refine ⟨fun payload hpayload => ?_, hreturns, ?_⟩
    · obtain ⟨file, hfile, hbytes, hsynced⟩ := (hkept payload hpayload).1.file
      exact ⟨file, hfile, hbytes, hsynced, (hkept payload hpayload).2⟩
    · intro reference hreference
      obtain ⟨payload, hpayload, hmade⟩ := hreturns.made hreference
      exact ⟨payload, hpayload, hmade, resolve_kept (hkept payload hpayload) hmade⟩

end EditChain.Store
