import EditChain.Cli.Archive
import EditChain.Store.LogTheorems
import Mathlib.Logic.Relation

/-!
# Restoring archives

Wherever the batches are cut, what a restore leaves is what the chain had together with the records
and the content of the entries, as long as the entries are valid and no two contents have the same
hash. Without a summary it reports that the archive is incomplete. A call of the log that fails
stops a restore with its error; what was stored until then stays, and nothing else is added.
-/

namespace EditChain.Cli

open Core Fallible Store Sync
open Std (ExtTreeMap ExtTreeSet)

variable {Op : Type} [Schema Op] [Blake3]

/-! ## Calls of the log -/

section Calls

variable {L σ ε α β : Type}

omit [Blake3] in
/-- Records that an admission may append. -/
def Admissible (records : List Bytes) : Prop :=
  ∀ b ∈ records, b.length ≤ maxRecordBytes ∧ ∃ id, Decodes id b

/-- A call of a log by an admission, with its result and the log that it leaves. -/
inductive Called (log : AppendLog L) (l : L) : Except IoError Unit → L → Prop
  | visit {result : Except IoError (List Record × LogReadStats)} {l' : L} :
    log.visitRecords.exec l = (result, l') → Called log l (result.map fun _ => ()) l'
  | sync {result : Except IoError Unit} {l' : L} :
    log.sync.exec l = (result, l') → Called log l result l'
  | append {records : List Record} {result : Except IoError Unit} {l' : L} :
    Admissible (records.map Record.data) → (log.appendRecords records).exec l = (result, l') →
      Called log l result l'

/-- Some calls succeeded, one after the other. -/
def Served (log : AppendLog L) : L → L → Prop :=
  Relation.ReflTransGen fun l l' => Called log l (.ok ()) l'

/-- After some calls that succeeded, one failed. -/
def Refused (log : AppendLog L) (l : L) (error : IoError) (l' : L) : Prop :=
  ∃ middle, Served log l middle ∧ Called log middle (.error error) l'

/-- A run that succeeds with `P`, its calls of the log having succeeded, or stops with `Q` at a call
that failed, whose error it reports. -/
def Runs (log : AppendLog L) (view : σ → L) (report : IoError → ε) (m : Fallible ε σ α) (s : σ)
    (P : α → σ → Prop) (Q : σ → Prop) : Prop :=
  (∃ a t, m.exec s = (.ok a, t) ∧ Served log (view s) (view t) ∧ P a t)
    ∨ ∃ error t, m.exec s = (.error (report error), t) ∧ Refused log (view s) error (view t) ∧ Q t

variable {log : AppendLog L} {view : σ → L} {report : IoError → ε} {s : σ} {P : α → σ → Prop}
  {P' : β → σ → Prop} {Q : σ → Prop}

omit [Blake3] in
/-- A run without calls. -/
lemma Runs.of_ok {m : Fallible ε σ α} {a : α} {t : σ} (hexec : m.exec s = (.ok a, t))
    (hview : view t = view s) (h : P a t) : Runs log view report m s P Q := by
  refine .inl ⟨a, t, hexec, ?_, h⟩
  rw [hview]
  exact .refl

omit [Blake3] in
lemma Runs.bind {m : Fallible ε σ α} {f : α → Fallible ε σ β}
    (h : Runs log view report m s P Q)
    (hnext : ∀ a t, P a t → Runs log view report (f a) t P' Q) :
    Runs log view report (m >>= f) s P' Q := by
  rcases h with ⟨a, t, hexec, hserved, hP⟩ | ⟨error, t, hexec, hrefused, hQ⟩
  · rcases hnext a t hP with ⟨b, u, hexec', hserved', hP'⟩ |
      ⟨error, u, hexec', ⟨middle, hserved', hcalled⟩, hQ⟩
    · refine .inl ⟨b, u, ?_, hserved.trans hserved', hP'⟩
      rw [exec_bind_of_ok hexec]
      exact hexec'
    · refine .inr ⟨error, u, ?_, ⟨middle, hserved.trans hserved', hcalled⟩, hQ⟩
      rw [exec_bind_of_ok hexec]
      exact hexec'
  · exact .inr ⟨error, t, exec_bind_of_error hexec, hrefused, hQ⟩

omit [Blake3] in
lemma Runs.mono {m : Fallible ε σ α} {R : α → σ → Prop} {S : σ → Prop}
    (h : Runs log view report m s P Q) (hP : ∀ a t, P a t → R a t) (hQ : ∀ t, Q t → S t) :
    Runs log view report m s R S := by
  rcases h with ⟨a, t, hexec, hserved, hall⟩ | ⟨error, t, hexec, hrefused, hsome⟩
  · exact .inl ⟨a, t, hexec, hserved, hP a t hall⟩
  · exact .inr ⟨error, t, hexec, hrefused, hQ t hsome⟩

omit [Blake3] in
/-- One call of the log. -/
lemma runs_onLog {m : Fallible IoError L α} {store : LogStore L}
    (h : Called log store.log ((m.exec store.log).1.map fun _ => ()) (m.exec store.log).2) :
    Runs log LogStore.log id (LogStore.onLog m) store (fun _ _ => True) (fun _ => True) := by
  generalize hresult : m.exec store.log = result at h
  obtain ⟨result, l'⟩ := result
  cases result with
  | ok a =>
    refine .inl ⟨a, { store with log := l' }, ?_, .single h, trivial⟩
    rw [LogStore.exec_onLog, hresult]
  | error error =>
    refine .inr ⟨error, { store with log := l' }, ?_, ⟨_, .refl, h⟩, trivial⟩
    rw [LogStore.exec_onLog, hresult]
    rfl

omit [Blake3] in
/-- A run goes on from another state with the same log. -/
lemma Runs.of_exec {m : Fallible ε σ α} (m' : Fallible ε σ α) (s' : σ)
    (hexec : m.exec s = m'.exec s') (hview : view s' = view s)
    (h : Runs log view report m' s' P Q) :
    Runs log view report m s P Q := by
  unfold Runs at h ⊢
  rw [hexec, ← hview]
  exact h

omit [Blake3] in
lemma runs_takeEvidence (store : LogStore L) :
    Runs log LogStore.log id (LogStore.takeEvidence log) store (fun _ _ => True)
      (fun _ => True) := by
  cases hcached : store.evidence with
  | some evidence =>
    refine Runs.of_ok (t := { store with evidence := none }) (a := evidence) ?_ rfl trivial
    unfold LogStore.takeEvidence
    rw [exec_bind_of_ok (exec_get store), exec_bind_of_ok (exec_set _ store), hcached]
    rfl
  | none =>
    refine .of_exec (LogStore.onLog (readEvidence log)) { store with evidence := none } ?_ rfl
      (runs_onLog ?_)
    · unfold LogStore.takeEvidence
      rw [exec_bind_of_ok (exec_get store), exec_bind_of_ok (exec_set _ store), hcached]
    · show Called log store.log (((readEvidence log).exec store.log).1.map _)
        ((readEvidence log).exec store.log).2
      unfold readEvidence
      rw [exec_bind]
      cases hvisit : log.visitRecords.exec store.log with
      | mk result l' =>
        have hcalled := Called.visit hvisit
        cases result with
        | error error => exact hcalled
        | ok visited => exact hcalled

omit [Blake3] in
/-- What a batch appends is among its records. -/
lemma data_of_mem_pendingOf {e : OpSet} {records : List (OpId × Bytes)} {record : Record}
    (h : record ∈ pendingOf e records) : ∃ pair ∈ records, pair.2 = record.data := by
  induction records generalizing e with
  | nil => cases h
  | cons pair rest ih =>
    obtain ⟨id, bytes⟩ := pair
    unfold pendingOf at h
    split at h
    · rcases List.mem_cons.mp h with rfl | h
      · exact ⟨_, List.mem_cons_self, rfl⟩
      · obtain ⟨other, hother, heq⟩ := ih h
        exact ⟨other, List.mem_cons_of_mem _ hother, heq⟩
    · obtain ⟨other, hother, heq⟩ := ih h
      exact ⟨other, List.mem_cons_of_mem _ hother, heq⟩

omit [Blake3] in
lemma runs_commit {batch : LogStore.Batch} (h : Admissible (batch.pending.map Record.data))
    (store : LogStore L) :
    Runs log LogStore.log id (LogStore.commit log batch) store (fun _ _ => True)
      (fun _ => True) := by
  have hlast : ∀ store : LogStore L, Runs log LogStore.log id
      (LogStore.onLog (log.appendRecords batch.pending) >>= fun _ => (do
        modify fun s => { s with evidence := some batch.evidence }
        return batch.admissions : Fallible IoError (LogStore L) (List Admission))) store
      (fun _ _ => True) (fun _ => True) := by
    intro store
    refine (runs_onLog ?_).bind fun _ t _ => .of_ok rfl rfl trivial
    have hcalled : Called log store.log ((log.appendRecords batch.pending).exec store.log).1
      ((log.appendRecords batch.pending).exec store.log).2 := .append h rfl
    cases hresult : ((log.appendRecords batch.pending).exec store.log).1 <;>
      rw [hresult] at hcalled <;> exact hcalled
  unfold LogStore.commit
  by_cases hfence : batch.fence = true
  · rw [if_pos hfence]
    refine (runs_onLog ?_).bind fun _ t _ => hlast t
    have hcalled : Called log store.log (log.sync.exec store.log).1 (log.sync.exec store.log).2 :=
      .sync rfl
    cases hresult : (log.sync.exec store.log).1 <;> rw [hresult] at hcalled <;> exact hcalled
  · rw [if_neg hfence]
    exact hlast store

omit [Blake3] in
/-- A batch of valid records fails only where a call of the log does. -/
lemma runs_appendEncodedBatch {records : List Bytes} {ids : List OpId}
    (hvalid : records.mapM validateRecord = .ok ids) (hrecords : Admissible records)
    (store : LogStore L) :
    Runs log LogStore.log id (LogStore.appendEncodedBatch log records) store (fun _ _ => True)
      (fun _ => True) := by
  unfold LogStore.appendEncodedBatch
  rw [hvalid]
  refine Runs.bind (P := fun a _ => a = ids) (.of_ok (exec_lift _ store) rfl rfl) ?_
  rintro a s rfl
  split
  · exact .of_ok rfl rfl trivial
  · refine (runs_takeEvidence s).bind fun evidence t _ => runs_commit ?_ t
    intro b hb
    obtain ⟨record, hrecord, rfl⟩ := List.mem_map.mp hb
    rw [LogStore.admitAll_eq, List.nil_append] at hrecord
    obtain ⟨pair, hpair, heq⟩ := data_of_mem_pendingOf hrecord
    rw [← heq]
    exact hrecords _ (List.of_mem_zip hpair).2

end Calls

/-! ## Blob directories -/

namespace BlobFiles

/-- No content has the hash of another one, nor of a file that is there. -/
structure Apart (files : BlobFiles) (payloads : List Bytes) : Prop where
  distinct : ∀ a ∈ payloads, ∀ b ∈ payloads, Blake3.hash a = Blake3.hash b → a = b
  fresh : ∀ a ∈ payloads, ∀ b, files[Blake3.hash a]? = some b → b = a

/-- The files after some content was added. -/
def Gains (files : BlobFiles) (payloads : List Bytes) (files' : BlobFiles) : Prop :=
  ∀ hash bytes, files'[hash]? = some bytes
    ↔ files[hash]? = some bytes ∨ (bytes ∈ payloads ∧ Blake3.hash bytes = hash)

lemma Gains.refl (files : BlobFiles) : Gains files [] files := by
  intro hash bytes
  simp

lemma Gains.trans {a b c : BlobFiles} {xs ys : List Bytes} (hab : Gains a xs b)
    (hbc : Gains b ys c) : Gains a (xs ++ ys) c := by
  intro hash bytes
  rw [hbc, hab, List.mem_append]
  tauto

lemma Apart.sublist {files : BlobFiles} {xs ys : List Bytes} (h : Apart files ys)
    (hsub : ∀ b ∈ xs, b ∈ ys) : Apart files xs :=
  ⟨fun a ha b hb => h.distinct a (hsub a ha) b (hsub b hb), fun a ha => h.fresh a (hsub a ha)⟩

/-- What was added stays apart from the rest. -/
lemma Apart.gains {files files' : BlobFiles} {xs ys : List Bytes} (h : Apart files (xs ++ ys))
    (hgains : Gains files xs files') : Apart files' ys := by
  refine ⟨fun a ha b hb => h.distinct a (by simp [ha]) b (by simp [hb]), fun a ha b hb => ?_⟩
  rcases (hgains _ b).mp hb with hold | ⟨hmem, hhash⟩
  · exact h.fresh a (by simp [ha]) b hold
  · exact h.distinct b (by simp [hmem]) a (by simp [ha]) hhash

/-- Writing pending content. -/
lemma foldl_insert_gains {files : BlobFiles} {pending : List Bytes} (h : Apart files pending) :
    Gains files pending
      (pending.foldl (fun files bytes => files.insert (Blake3.hash bytes) bytes) files) := by
  induction pending generalizing files with
  | nil => exact Gains.refl files
  | cons first rest ih =>
    have hone : Gains files [first] (files.insert (Blake3.hash first) first) := by
      intro hash bytes
      rw [ExtTreeMap.getElem?_insert]
      by_cases hsame : Blake3.hash first = hash
      · subst hsame
        rw [if_pos (by simp), Option.some.injEq, List.mem_singleton]
        constructor
        · intro heq
          exact .inr ⟨heq.symm, by rw [heq]⟩
        · intro hcase
          rcases hcase with hold | ⟨heq, -⟩
          · exact (h.fresh first (by simp) bytes hold).symm
          · exact heq.symm
      · rw [if_neg (by simpa using hsame)]
        constructor
        · exact .inl
        · intro hcase
          rcases hcase with hold | ⟨hmem, hhash⟩
          · exact hold
          · rw [List.mem_singleton] at hmem
            subst hmem
            exact absurd hhash hsame
    exact hone.trans (ih (@Apart.gains _ _ _ [first] rest h hone))

/-- The content that is not there yet is staged. -/
lemma stage_spec {files : BlobFiles} {cohort : List Bytes} {unique : ExtTreeMap Digest Bytes}
    {pending : List Bytes} (h : Apart files cohort)
    (hunique : ∀ a ∈ cohort, ∀ b, unique[Blake3.hash a]? = some b → b = a) :
    ∃ staged, stage files cohort unique pending = .ok staged
      ∧ (∀ b, b ∈ staged → b ∈ pending ∨ b ∈ cohort) ∧ (∀ b ∈ pending, b ∈ staged)
      ∧ ∀ b ∈ cohort, files[Blake3.hash b]? = some b ∨ b ∈ staged
        ∨ unique[Blake3.hash b]? = some b := by
  induction cohort generalizing unique pending with
  | nil => exact ⟨pending, rfl, fun b hb => .inl hb, fun b hb => hb, by simp⟩
  | cons first rest ih =>
    have hrest : Apart files rest := h.sublist fun b hb => List.mem_cons_of_mem _ hb
    have hnext : ∀ a ∈ rest, ∀ b,
        (unique.insert (Blake3.hash first) first)[Blake3.hash a]? = some b → b = a := by
      intro a ha b hb
      rw [ExtTreeMap.getElem?_insert] at hb
      split at hb
      · next hsame =>
        cases hb
        rw [Std.compare_eq_iff_eq] at hsame
        exact h.distinct first (by simp) a (by simp [ha]) hsame
      · exact hunique a (by simp [ha]) b hb
    have hknown : ∀ b ∈ rest, (unique.insert (Blake3.hash first) first)[Blake3.hash b]? = some b →
        b = first ∨ unique[Blake3.hash b]? = some b := by
      intro b hb hsome
      rw [ExtTreeMap.getElem?_insert] at hsome
      split at hsome
      · cases hsome
        exact .inl rfl
      · exact .inr hsome
    rw [stage]
    cases hprevious : unique[Blake3.hash first]? with
    | some previous =>
      obtain rfl := hunique first (by simp) previous hprevious
      dsimp only
      rw [if_neg (by simp)]
      obtain ⟨staged, hstaged, hsub, hkept, hall⟩ := @ih (unique.insert (Blake3.hash previous)
        previous) pending hrest hnext
      refine ⟨staged, hstaged, fun b hb => ?_, hkept, fun b hb => ?_⟩
      · rcases hsub b hb with hin | hin
        · exact .inl hin
        · exact .inr (List.mem_cons_of_mem _ hin)
      · rcases List.mem_cons.mp hb with rfl | hb
        · exact .inr (.inr hprevious)
        · rcases hall b hb with hin | hin | hin
          · exact .inl hin
          · exact .inr (.inl hin)
          · rcases hknown b hb hin with rfl | hin
            · exact .inr (.inr hprevious)
            · exact .inr (.inr hin)
    | none =>
      dsimp only
      cases hexisting : files[Blake3.hash first]? with
      | some existing =>
        obtain rfl := h.fresh first (by simp) existing hexisting
        dsimp only
        rw [if_neg (by simp)]
        obtain ⟨staged, hstaged, hsub, hkept, hall⟩ := @ih (unique.insert (Blake3.hash existing)
          existing) pending hrest hnext
        refine ⟨staged, hstaged, fun b hb => ?_, hkept, fun b hb => ?_⟩
        · rcases hsub b hb with hin | hin
          · exact .inl hin
          · exact .inr (List.mem_cons_of_mem _ hin)
        · rcases List.mem_cons.mp hb with rfl | hb
          · exact .inl hexisting
          · rcases hall b hb with hin | hin | hin
            · exact .inl hin
            · exact .inr (.inl hin)
            · rcases hknown b hb hin with rfl | hin
              · exact .inl hexisting
              · exact .inr (.inr hin)
      | none =>
        dsimp only
        obtain ⟨staged, hstaged, hsub, hkept, hall⟩ := @ih (unique.insert (Blake3.hash first)
          first) (pending ++ [first]) hrest hnext
        have hfirst : first ∈ staged := hkept first (by simp)
        refine ⟨staged, hstaged, fun b hb => ?_, fun b hb => hkept b (by simp [hb]), fun b hb => ?_⟩
        · rcases hsub b hb with hin | hin
          · rcases List.mem_append.mp hin with hin | hin
            · exact .inl hin
            · rw [List.mem_singleton] at hin
              exact .inr (by simp [hin])
          · exact .inr (List.mem_cons_of_mem _ hin)
        · rcases List.mem_cons.mp hb with rfl | hb
          · exact .inr (.inl hfirst)
          · rcases hall b hb with hin | hin | hin
            · exact .inl hin
            · exact .inr (.inl hin)
            · rcases hknown b hb hin with rfl | hin
              · exact .inr (.inl hfirst)
              · exact .inr (.inr hin)

lemma publishBatch_spec {files : BlobFiles} {cohort : List Bytes} (h : Apart files cohort) :
    ∃ files', (publishBatch cohort).exec files = (.ok (), files') ∧ Gains files cohort files' := by
  obtain ⟨staged, hstaged, hsub, -, hall⟩ := @stage_spec _ files cohort ∅ [] h (by simp)
  have hin : ∀ b ∈ staged, b ∈ cohort := by
    intro b hb
    rcases hsub b hb with hin | hin
    · cases hin
    · exact hin
  refine ⟨staged.foldl (fun files bytes => files.insert (Blake3.hash bytes) bytes) files, ?_, ?_⟩
  · unfold publishBatch
    rw [exec_bind_of_ok (exec_get files), hstaged]
    rfl
  · have hgains := foldl_insert_gains (h.sublist hin)
    intro hash bytes
    rw [hgains]
    constructor
    · intro hcase
      rcases hcase with hold | ⟨hmem, hhash⟩
      · exact .inl hold
      · exact .inr ⟨hin bytes hmem, hhash⟩
    · intro hcase
      rcases hcase with hold | ⟨hmem, hhash⟩
      · exact .inl hold
      · rcases hall bytes hmem with hold | hnew | hnone
        · rw [hhash] at hold
          exact .inl hold
        · exact .inr ⟨hnew, hhash⟩
        · simp at hnone

lemma writeBatch_spec {fuel : ℕ} {files : BlobFiles} {payloads : List Bytes}
    (h : Apart files payloads) (hfuel : payloads.length ≤ fuel) :
    ∃ files', (writeBatch fuel payloads).exec files = (.ok (), files')
      ∧ Gains files payloads files' := by
  induction fuel generalizing files payloads with
  | zero =>
    rw [Nat.le_zero, List.length_eq_zero_iff] at hfuel
    subst hfuel
    exact ⟨files, rfl, Gains.refl files⟩
  | succ fuel ih =>
    cases payloads with
    | nil => exact ⟨files, rfl, Gains.refl files⟩
    | cons first rest =>
      obtain ⟨middle, hpublish, hmiddle⟩ := publishBatch_spec
        (h.sublist fun b hb => List.mem_of_mem_take hb : Apart files ((first :: rest).take 64))
      have hsplit : Apart files ((first :: rest).take 64 ++ (first :: rest).drop 64) := by
        rw [List.take_append_drop]
        exact h
      obtain ⟨files', hwrite, hgains⟩ := ih (hsplit.gains hmiddle) (by
        rw [List.length_drop]
        simp only [List.length_cons] at hfuel ⊢
        omega)
      refine ⟨files', ?_, ?_⟩
      · show (publishBatch ((first :: rest).take 64) >>= fun _ =>
          writeBatch fuel ((first :: rest).drop 64)).exec files = _
        rw [exec_bind_of_ok hpublish]
        exact hwrite
      · have hboth := hmiddle.trans hgains
        rw [List.take_append_drop] at hboth
        exact hboth

/-- Content that is apart from the rest is stored. -/
lemma putBatch_spec {files : BlobFiles} {payloads : List Bytes} (h : Apart files payloads)
    (hsmall : ∀ b ∈ payloads, b.length < 2 ^ 32) :
    ∃ files', (putBatch payloads).exec files = (.ok (), files')
      ∧ Gains files payloads files' := by
  obtain ⟨files', hwrite, hgains⟩ := writeBatch_spec h le_rfl
  refine ⟨files', ?_, hgains⟩
  unfold putBatch
  rw [exec_guard, if_neg]
  · exact hwrite
  · rw [List.any_eq_true]
    intro hlarge
    obtain ⟨b, hb, hlength⟩ := hlarge
    rw [decide_eq_true_eq] at hlength
    have hless := hsmall b hb
    omega

end BlobFiles

/-! ## Entries -/

/-- The records of an archive, in order. -/
def operations (entries : List Entry) : List Bytes :=
  entries.filterMap fun
    | .operation encoded => some encoded
    | _ => none

/-- The content of an archive, in order. -/
def contents (entries : List Entry) : List Bytes :=
  entries.filterMap fun
    | .blob _ bytes => some bytes
    | _ => none

omit [Blake3] in
lemma operations_append (xs ys : List Entry) :
    operations (xs ++ ys) = operations xs ++ operations ys := List.filterMap_append

omit [Blake3] in
lemma contents_append (xs ys : List Entry) : contents (xs ++ ys) = contents xs ++ contents ys :=
  List.filterMap_append

/-- A record or content that a restore takes. -/
def Entry.Valid : Entry → Prop
  | .operation encoded => encoded.length ≤ maxRecordBytes ∧ ∃ id, Decodes id encoded
  | .blob reference bytes =>
    reference = ⟨.hash256 (Blake3.hash bytes), bytes.length⟩ ∧ bytes.length < 2 ^ 32
  | _ => False

omit [Blake3] in
lemma mem_operations {entries : List Entry} {encoded : Bytes} :
    encoded ∈ operations entries ↔ .operation encoded ∈ entries := by
  unfold operations
  rw [List.mem_filterMap]
  constructor
  · intro hcase
    obtain ⟨entry, hentry, heq⟩ := hcase
    cases entry <;> cases heq
    exact hentry
  · intro hin
    exact ⟨_, hin, rfl⟩

omit [Blake3] in
lemma mem_contents {entries : List Entry} {bytes : Bytes} :
    bytes ∈ contents entries ↔ ∃ reference, .blob reference bytes ∈ entries := by
  unfold contents
  rw [List.mem_filterMap]
  constructor
  · intro hcase
    obtain ⟨entry, hentry, heq⟩ := hcase
    cases entry <;> cases heq
    exact ⟨_, hentry⟩
  · intro hcase
    obtain ⟨reference, hin⟩ := hcase
    exact ⟨_, hin, rfl⟩

lemma valid_operation {entries : List Entry} (h : ∀ entry ∈ entries, entry.Valid) {encoded : Bytes}
    (hin : encoded ∈ operations entries) :
    encoded.length ≤ maxRecordBytes ∧ ∃ id, Decodes id encoded :=
  h _ (mem_operations.mp hin)

lemma valid_content {entries : List Entry} (h : ∀ entry ∈ entries, entry.Valid) {bytes : Bytes}
    (hin : bytes ∈ contents entries) : bytes.length < 2 ^ 32 := by
  obtain ⟨reference, hmem⟩ := mem_contents.mp hin
  exact (h _ hmem).2

namespace Restorer

variable {L : Type} {log : AppendLog L} (law : Lawful log) {start : List Record}
  {files : BlobFiles} {r r' : Restorer L}

/-- The records that a chain retains. -/
def evidence (law : Lawful log) (l : L) : Finset (OpId × Bytes) := (replay (law.contents l)).pairs

/-- What a chain holds after some records and content were added to it. -/
structure Stored (start : Finset (OpId × Bytes)) (files : BlobFiles) (ops blobs : List Bytes)
    (r : Restorer L) : Prop where
  coherent : LogStore.Coherent law r.store
  records : ∀ id bytes, (id, bytes) ∈ evidence law r.store.log
    ↔ (id, bytes) ∈ start ∨ (bytes ∈ ops ∧ Decodes id bytes)
  files : BlobFiles.Gains files blobs r.files

/-- What a chain holds at least and at most while some records and content are added to it. -/
structure Held (start : Finset (OpId × Bytes)) (files : BlobFiles) (ops blobs : List Bytes)
    (r : Restorer L) : Prop where
  kept : start ⊆ evidence law r.store.log
  records : ∀ id bytes, (id, bytes) ∈ evidence law r.store.log →
    (id, bytes) ∈ start ∨ (bytes ∈ ops ∧ Decodes id bytes)
  stays : ∀ (hash : Digest) bytes, files[hash]? = some bytes → r.files[hash]? = some bytes
  blobs : ∀ (hash : Digest) bytes, r.files[hash]? = some bytes →
    files[hash]? = some bytes ∨ (bytes ∈ blobs ∧ Blake3.hash bytes = hash)

variable {law} in
lemma Stored.held {start : Finset (OpId × Bytes)} {ops blobs : List Bytes}
    (h : Stored law start files ops blobs r) : Held law start files ops blobs r where
  kept pair hpair := (h.records pair.1 pair.2).mpr (.inl hpair)
  records id bytes := (h.records id bytes).mp
  stays hash bytes hfile := (h.files hash bytes).mpr (.inl hfile)
  blobs hash bytes := (h.files hash bytes).mp

variable {law} in
lemma Held.mono {start : Finset (OpId × Bytes)} {ops blobs ops' blobs' : List Bytes}
    (h : Held law start files ops blobs r) (hops : ∀ b ∈ ops, b ∈ ops')
    (hblobs : ∀ b ∈ blobs, b ∈ blobs') : Held law start files ops' blobs' r where
  kept := h.kept
  records id bytes hin := (h.records id bytes hin).imp_right fun hnew => ⟨hops _ hnew.1, hnew.2⟩
  stays := h.stays
  blobs hash bytes hin := (h.blobs hash bytes hin).imp_right fun hnew => ⟨hblobs _ hnew.1, hnew.2⟩

/-- A chain that a call of the log stopped, without cached evidence. -/
structure Halted (start : Finset (OpId × Bytes)) (files : BlobFiles) (ops blobs : List Bytes)
    (r : Restorer L) : Prop where
  held : Held law start files ops blobs r
  dropped : r.store.evidence = none

/-- The log of a restore. -/
def chainLog (r : Restorer L) : L := r.store.log

/-- The number of replies that wait for an admission. -/
def waiting (replies : List Reply) : ℕ :=
  replies.countP fun
    | .operation _ => true
    | .blob _ => false

omit [Schema Op] [Blake3] in
/-- Replies are answered as long as there are admissions; only the output changes. -/
lemma answer_spec {replies : List Reply} {admissions : List Admission}
    (h : waiting replies ≤ admissions.length) (r : Restorer L) :
    ∃ conflict output, (answer replies admissions).exec r
      = (.ok conflict, { r with output := output }) := by
  induction replies generalizing admissions r with
  | nil => exact ⟨false, r.output, rfl⟩
  | cons reply rest ih =>
    cases reply with
    | blob reference =>
      obtain ⟨conflict, output, hrest⟩ := ih (by simpa [waiting] using h)
        { r with output := r.output ++ [.blob reference] }
      exact ⟨conflict, output, hrest⟩
    | operation id =>
      cases admissions with
      | nil => simp [waiting] at h
      | cons admission admissions =>
        obtain ⟨conflict, output, hrest⟩ := @ih admissions (by simpa [waiting] using h)
          { r with output := r.output ++ [.admission id admission] }
        refine ⟨decide (admission = .conflict) || conflict, output, ?_⟩
        show ((answer rest admissions) >>= fun later => pure _).exec _ = _
        rw [exec_bind_of_ok hrest]
        rfl

omit [Schema Op] [Blake3] in
lemma exec_io_of_ok {σ α : Type} {m : Fallible IoError σ α} {s t : σ} {a : α}
    (h : m.exec s = (.ok a, t)) : (io m).exec s = (.ok a, t) := by
  show ((m.exec s).1.mapError Failure.ofIo, (m.exec s).2) = _
  rw [h]
  rfl

omit [Blake3] in
/-- Valid records have identities. -/
lemma exists_ids {records : List Bytes} (h : Admissible records) :
    ∃ ids, records.mapM validateRecord = .ok ids ∧ ids.length = records.length := by
  induction records with
  | nil => exact ⟨[], rfl, rfl⟩
  | cons first rest ih =>
    obtain ⟨hsmall, id, hid⟩ := h first (by simp)
    obtain ⟨ids, hrest, hlength⟩ := ih fun b hb => h b (by simp [hb])
    refine ⟨id :: ids, ?_, by simp [hlength]⟩
    rw [List.mapM_cons, LogStore.validateRecord_eq_ok.mpr ⟨hsmall, hid⟩, hrest]
    rfl

omit [Blake3] in
/-- A batch of valid records joins the evidence, or a call of the log fails and some of them do. -/
lemma runs_append {s : LogStore L} (hs : LogStore.Coherent law s) {records : List Bytes}
    (hvalid : Admissible records) :
    Runs log LogStore.log id (LogStore.appendEncodedBatch log records) s
      (fun admissions t => admissions.length = records.length ∧ LogStore.Coherent law t
        ∧ ∀ id bytes, (id, bytes) ∈ evidence law t.log
          ↔ (id, bytes) ∈ evidence law s.log ∨ (bytes ∈ records ∧ Decodes id bytes))
      (fun t => t.evidence = none ∧ evidence law s.log ⊆ evidence law t.log
        ∧ ∀ id bytes, (id, bytes) ∈ evidence law t.log →
          (id, bytes) ∈ evidence law s.log ∨ (bytes ∈ records ∧ Decodes id bytes)) := by
  obtain ⟨ids, hids, hlength⟩ := exists_ids hvalid
  rcases runs_appendEncodedBatch hids hvalid s with ⟨admissions, t, hexec, hserved, -⟩ |
    ⟨error, t, hexec, hrefused, -⟩
  · obtain ⟨hcoherent, -⟩ :=
      LogStore.coherent_of_outcome law hs (LogStore.appendEncodedBatch_outcome law hs hexec)
    obtain ⟨ids', hids', hadmissions, hlog, -⟩ := LogStore.appendEncodedBatch_eq_ok law hs hexec
    obtain rfl : ids = ids' := Except.ok.inj (hids.symm.trans hids')
    obtain ⟨hdecodes, hmem⟩ := LogStore.mapM_validateRecord hids
    refine .inl ⟨admissions, t, hexec, hserved, ?_, hcoherent, fun id bytes => ?_⟩
    · rw [hadmissions, OpSet.length_insertAll, List.length_zip, hlength, Nat.min_self]
    · unfold evidence
      rw [hlog, replay_append_pendingOf _ hdecodes, OpSet.pairs_insertAll, Finset.mem_union,
        List.mem_toFinset]
      apply or_congr_right
      constructor
      · intro hin
        exact ⟨(List.of_mem_zip hin).2, hdecodes (id, bytes) hin⟩
      · intro hin
        obtain ⟨other, hother⟩ := hmem bytes hin.1
        rw [hin.2.eq (hdecodes (other, bytes) hother)]
        exact hother
  · refine .inr ⟨error, t, hexec, hrefused, ?_⟩
    have houtcome := LogStore.appendEncodedBatch_outcome law hs hexec
    generalize hresult : (Except.error error : Except IoError (List Admission)) = result at houtcome
    cases houtcome with
    | rejected other hrejected =>
      rw [hids] at hrejected
      cases hrejected
    | failed other t ids' kept hids' hcache hkept hlog =>
      -- what was kept is a part of what the batch appends
      refine ⟨hcache, fun pair hpair => ?_, fun id bytes hin => ?_⟩
      · obtain ⟨id, bytes⟩ := pair
        unfold evidence at hpair ⊢
        rw [mem_pairs_replay] at hpair ⊢
        obtain ⟨hdecodes, record, hrecord, hdata⟩ := hpair
        rw [hlog]
        exact ⟨hdecodes, record, List.mem_append_left _ hrecord, hdata⟩
      · unfold evidence at hin ⊢
        rw [mem_pairs_replay, hlog] at hin
        obtain ⟨hdecodes, record, hrecord, hdata⟩ := hin
        rcases List.mem_append.mp hrecord with hold | hnew
        · exact .inl (mem_pairs_replay.mpr ⟨hdecodes, record, hold, hdata⟩)
        · obtain ⟨pair, hpair, heq⟩ := data_of_mem_pendingOf (hkept.subset hnew)
          refine .inr ⟨?_, hdecodes⟩
          rw [← hdata, ← heq]
          exact (List.of_mem_zip hpair).2

lemma exec_storeBlobs {blobs : List Bytes} {files' : BlobFiles}
    (h : (BlobFiles.putBatch blobs).exec r.files = (.ok (), files')) :
    (storeBlobs blobs).exec r = (.ok (), { r with files := files' }) := by
  apply exec_io_of_ok
  rw [exec_zoom, h]

omit [Blake3] in
/-- Running the writer of a restore. -/
lemma runs_appendRecords {records : List Bytes} {P : List Admission → LogStore L → Prop}
    {Q : LogStore L → Prop}
    (h : Runs log LogStore.log id (LogStore.appendEncodedBatch log records) r.store P Q) :
    Runs log chainLog Failure.ofIo (appendRecords log records) r
      (fun admissions r' => ∃ store, P admissions store ∧ r' = { r with store := store })
      (fun r' => ∃ store, Q store ∧ r' = { r with store := store }) := by
  rcases h with ⟨admissions, store, hexec, hserved, hP⟩ | ⟨error, store, hexec, hrefused, hQ⟩
  · refine .inl ⟨admissions, { r with store := store }, ?_, hserved, store, hP, rfl⟩
    apply exec_io_of_ok
    rw [exec_zoom, hexec]
  · refine .inr ⟨error, { r with store := store }, ?_, hrefused, store, hQ, rfl⟩
    show ((Except.mapError _ ((LogStore.appendEncodedBatch log records).exec r.store).1), _) = _
    rw [exec_zoom, hexec]
    rfl

/-- The entries taken so far are in the chain or in the batch. -/
structure Took (start : Finset (OpId × Bytes)) (files : BlobFiles) (body : List Entry)
    (r : Restorer L) : Prop where
  batches : ∃ ops blobs, operations body = ops ++ r.records ∧ contents body = blobs ++ r.blobs
    ∧ Stored law start files ops blobs r
  waiting : waiting r.replies = r.records.length
  count : r.count = (operations body).length
  missing : r.missing = false

/-- A flush stores the batch, unless a call of the log fails. -/
lemma Took.flush {start : Finset (OpId × Bytes)} {body : List Entry}
    (hvalid : ∀ entry ∈ body, entry.Valid) (hapart : BlobFiles.Apart files (contents body))
    (h : Took law start files body r) :
    Runs log chainLog Failure.ofIo (flush log) r
      (fun _ r' => Took law start files body r'
        ∧ Stored law start files (operations body) (contents body) r'
        ∧ r'.summary = r.summary ∧ r'.header = r.header)
      (Halted law start files (operations body) (contents body)) := by
  obtain ⟨ops, blobs, hops, hblobs, hstored⟩ := h.batches
  have hrecords : Admissible r.records := by
    intro b hb
    have hin : b ∈ operations body := by
      rw [hops]
      exact List.mem_append_right _ hb
    exact valid_operation hvalid hin
  have hsmall : ∀ b ∈ r.blobs, b.length < 2 ^ 32 := by
    intro b hb
    have hin : b ∈ contents body := by
      rw [hblobs]
      exact List.mem_append_right _ hb
    exact valid_content hvalid hin
  rw [hblobs] at hapart
  obtain ⟨files', hput, hgains⟩ := BlobFiles.putBatch_spec (hapart.gains hstored.files) hsmall
  have hgained : BlobFiles.Gains files (contents body) files' := by
    rw [hblobs]
    exact hstored.files.trans hgains
  -- the content is stored first
  refine .of_exec (do
      let admissions ← appendRecords log r.records
      let conflict ← answer r.replies admissions
      modify (cleared conflict)) { r with files := files' } ?_ rfl ?_
  · unfold Restorer.flush
    rw [exec_bind_of_ok (exec_get r)]
    by_cases hnil : r.blobs = []
    · rw [if_neg (not_not.mpr hnil)]
      rw [hnil] at hput
      cases hput
      rfl
    · rw [if_pos hnil, exec_bind_of_ok (exec_storeBlobs hput)]
  have happend := runs_appendRecords (r := { r with files := files' })
    (runs_append law hstored.coherent hrecords)
  refine (happend.mono (fun _ _ hdone => hdone) ?_).bind ?_
  · rintro r' ⟨store, ⟨hdropped, hkept, hadded⟩, rfl⟩
    refine ⟨⟨hstored.held.kept.trans hkept, fun id bytes hin => ?_, ?_, ?_⟩, hdropped⟩
    · rcases hadded id bytes hin with hold | ⟨hnew, hdecodes⟩
      · rcases (hstored.records id bytes).mp hold with hstart | ⟨hin, hdecodes⟩
        · exact .inl hstart
        · exact .inr ⟨by rw [hops]; exact List.mem_append_left _ hin, hdecodes⟩
      · exact .inr ⟨by rw [hops]; exact List.mem_append_right _ hnew, hdecodes⟩
    · exact fun hash bytes hfile => (hgained hash bytes).mpr (.inl hfile)
    · exact fun hash bytes hfile => (hgained hash bytes).mp hfile
  · rintro admissions r' ⟨store, ⟨hlength, hcoherent, hevidence⟩, rfl⟩
    obtain ⟨conflict, output, hanswer⟩ := answer_spec (by rw [h.waiting, hlength])
      ({ r with files := files', store := store } : Restorer L)
    have hevidence' : ∀ id bytes, (id, bytes) ∈ evidence law store.log
        ↔ (id, bytes) ∈ start ∨ (bytes ∈ operations body ∧ Decodes id bytes) := by
      intro id bytes
      rw [hevidence, hstored.records, hops, List.mem_append]
      tauto
    refine .of_ok (a := ())
      (t := cleared conflict { r with files := files', store := store, output := output }) ?_ rfl
      ⟨⟨⟨operations body, contents body, ?_, ?_, hcoherent, hevidence', hgained⟩, rfl, h.count,
        h.missing⟩, ⟨hcoherent, hevidence', hgained⟩, rfl, rfl⟩
    · rw [exec_bind_of_ok hanswer]
      rfl
    · exact (List.append_nil _).symm
    · exact (List.append_nil _).symm

/-- A valid entry joins the batch. -/
lemma Took.enter {start : Finset (OpId × Bytes)} {body : List Entry} {entry : Entry}
    (hvalid : entry.Valid) (h : Took law start files body r) :
    ∃ r', (enter entry).exec r = (.ok (), r') ∧ Took law start files (body ++ [entry]) r'
      ∧ r'.summary = r.summary ∧ r'.header = r.header ∧ r'.store = r.store := by
  obtain ⟨ops, blobs, hops, hblobs, hstored⟩ := h.batches
  cases entry with
  | header version => exact hvalid.elim
  | missingBlob id => exact hvalid.elim
  | summary stats => exact hvalid.elim
  | operation encoded =>
    obtain ⟨-, id, op, hop, -⟩ := hvalid
    refine ⟨{ r with
        bytes := r.bytes + encoded.length
        records := r.records ++ [encoded]
        replies := r.replies ++ [.operation (Schema.id op)]
        count := r.count + 1 }, ?_, ⟨⟨ops, blobs, ?_, ?_, ⟨hstored.coherent, hstored.records,
          hstored.files⟩⟩, ?_, ?_, h.missing⟩, rfl, rfl, rfl⟩
    · unfold Restorer.enter
      dsimp only
      rw [hop]
      rfl
    · rw [operations_append, hops, List.append_assoc]
      rfl
    · rw [contents_append, hblobs]
      exact List.append_nil _
    · show Restorer.waiting (r.replies ++ [_]) = (r.records ++ [encoded]).length
      rw [Restorer.waiting, List.countP_append, List.length_append, ← h.waiting]
      rfl
    · rw [operations_append, List.length_append, ← h.count]
      rfl
  | blob reference bytes =>
    obtain ⟨hreference, -⟩ := hvalid
    refine ⟨{ r with
        bytes := r.bytes + bytes.length
        blobs := r.blobs ++ [bytes]
        replies := r.replies ++ [.blob reference] }, ?_, ⟨⟨ops, blobs, ?_, ?_, ⟨hstored.coherent,
          hstored.records, hstored.files⟩⟩, ?_, ?_, h.missing⟩, rfl, rfl, rfl⟩
    · unfold Restorer.enter
      dsimp only
      rw [if_neg]
      · rfl
      · rw [hreference]
        simp
    · rw [operations_append, hops]
      exact List.append_nil _
    · rw [contents_append, hblobs, List.append_assoc]
      rfl
    · show Restorer.waiting (r.replies ++ [_]) = r.records.length
      rw [Restorer.waiting, List.countP_append, ← h.waiting]
      rfl
    · rw [operations_append, List.length_append, ← h.count]
      rfl

/-- A flush in the middle of an archive changes nothing that matters. -/
lemma Took.flushIf {start : Finset (OpId × Bytes)} {body : List Entry}
    (hvalid : ∀ entry ∈ body, entry.Valid) (hapart : BlobFiles.Apart files (contents body))
    (h : Took law start files body r) :
    Runs log chainLog Failure.ofIo (do
        let r ← get
        if r.full then Restorer.flush log : Fallible Failure (Restorer L) Unit) r
      (fun _ r' => Took law start files body r' ∧ r'.summary = r.summary ∧ r'.header = r.header)
      (Halted law start files (operations body) (contents body)) := by
  by_cases hfull : r.full
  · refine .of_exec (Restorer.flush log) r ?_ rfl
      ((h.flush law hvalid hapart).mono ?_ fun _ hhalted => hhalted)
    · rw [exec_bind_of_ok (exec_get r), if_pos hfull]
    · rintro - r' ⟨htook, -, hsame⟩
      exact ⟨htook, hsame⟩
  · refine .of_ok (a := ()) (t := r) ?_ rfl ⟨h, rfl, rfl⟩
    rw [exec_bind_of_ok (exec_get r), if_neg hfull]
    rfl

/-- One more valid entry. -/
lemma Took.consume {start : Finset (OpId × Bytes)} {body : List Entry} {entry : Entry}
    (hvalid : ∀ entry' ∈ body ++ [entry], entry'.Valid)
    (hapart : BlobFiles.Apart files (contents (body ++ [entry])))
    (h : Took law start files body r) (hheader : r.header = true) (hsummary : r.summary = false) :
    Runs log chainLog Failure.ofIo (consume log entry) r
      (fun _ r' => Took law start files (body ++ [entry]) r' ∧ r'.header = true
        ∧ r'.summary = false)
      (Halted law start files (operations (body ++ [entry])) (contents (body ++ [entry]))) := by
  obtain ⟨entered, henter, htook, hsummary₁, hheader₁, hstore⟩ :=
    h.enter law (hvalid entry (by simp))
  refine .of_exec (do
    let r ← get
    if r.full then Restorer.flush log) entered ?_ (congrArg LogStore.log hstore)
    ((htook.flushIf law hvalid hapart).mono ?_ fun _ hhalted => hhalted)
  · unfold Restorer.consume
    rw [exec_bind_of_ok (exec_get r), exec_guard, if_neg (by rw [hsummary]; simp),
      if_neg (by rw [hheader]; simp), exec_bind_of_ok henter]
  · rintro - r' ⟨htook', hsummary₂, hheader₂⟩
    exact ⟨htook', by rw [hheader₂, hheader₁, hheader], by rw [hsummary₂, hsummary₁, hsummary]⟩

/-- Several valid entries. -/
lemma Took.consumeAll {start : Finset (OpId × Bytes)} {body rest : List Entry}
    (hvalid : ∀ entry ∈ body ++ rest, entry.Valid)
    (hapart : BlobFiles.Apart files (contents (body ++ rest)))
    (h : Took law start files body r) (hheader : r.header = true) (hsummary : r.summary = false) :
    Runs log chainLog Failure.ofIo (forM rest (Restorer.consume log)) r
      (fun _ r' => Took law start files (body ++ rest) r' ∧ r'.header = true ∧ r'.summary = false)
      (Halted law start files (operations (body ++ rest)) (contents (body ++ rest))) := by
  induction rest generalizing body r with
  | nil =>
    rw [List.append_nil]
    exact .of_ok rfl rfl ⟨h, hheader, hsummary⟩
  | cons entry rest ih =>
    have hsplit : body ++ entry :: rest = (body ++ [entry]) ++ rest := by simp
    rw [hsplit] at hvalid hapart ⊢
    have hone := h.consume law (fun e he => hvalid e (List.mem_append_left _ he))
      (hapart.sublist fun b hb => by
        rw [contents_append]
        exact List.mem_append_left _ hb) hheader hsummary
    rw [List.forM_cons]
    refine (hone.mono (fun _ _ hdone => hdone) fun r' hhalted => ?_).bind ?_
    · rw [operations_append _ rest, contents_append _ rest]
      exact ⟨hhalted.held.mono (fun b hb => List.mem_append_left _ hb)
        fun b hb => List.mem_append_left _ hb, hhalted.dropped⟩
    · rintro - middle ⟨htook, hheader', hsummary'⟩
      exact ih hvalid hapart htook hheader' hsummary'

/-! ## Whole archives -/

/-- The chain that a restore begins with. -/
def begin (l : L) (files : BlobFiles) : Restorer L := { store := LogStore.new l, files := files }

lemma took_begin (l : L) (files : BlobFiles) :
    Took law (evidence law l) files [] (begin l files) := by
  refine ⟨⟨[], [], rfl, rfl, nofun, fun id bytes => ?_, BlobFiles.Gains.refl files⟩, rfl, rfl, rfl⟩
  show _ ∈ evidence law l ↔ _
  simp

lemma held_begin (l : L) (files : BlobFiles) (ops blobs : List Bytes) :
    Held law (evidence law l) files ops blobs (begin l files) where
  kept := Finset.Subset.refl _
  records _ _ hin := .inl hin
  stays _ _ hfile := hfile
  blobs _ _ hfile := .inl hfile

/-- What a part of an archive without its summary gives. -/
def incomplete : Failure :=
  .input "archive is incomplete (no summary); retained entries can be safely replayed"

/-- A call of the log failed in a restore from this log, and the restore ended with its error. -/
def Stopped (log : AppendLog L) (l : L) (result : Except Failure Unit) (r : Restorer L) : Prop :=
  ∃ error, result = .error (.ofIo error) ∧ Refused log l error r.store.log
    ∧ r.store.evidence = none

/-- The header and several valid entries. -/
lemma consume_body {body : List Entry} (hvalid : ∀ entry ∈ body, entry.Valid) (l : L)
    (hapart : BlobFiles.Apart files (contents body)) :
    Runs log chainLog Failure.ofIo (forM (.header 1 :: body) (Restorer.consume log)) (begin l files)
      (fun _ r => Took law (evidence law l) files body r ∧ r.header = true ∧ r.summary = false)
      (Halted law (evidence law l) files (operations body) (contents body)) := by
  have hstart : Took law (evidence law l) files [] { begin l files with header := true } := by
    obtain ⟨hbatches, hwaiting, hcount, hmissing⟩ := took_begin law l files
    obtain ⟨ops, blobs, hops, hblobs, hstored⟩ := hbatches
    exact ⟨⟨ops, blobs, hops, hblobs, hstored.coherent, hstored.records, hstored.files⟩, hwaiting,
      hcount, hmissing⟩
  exact .of_exec (forM body (Restorer.consume log)) { begin l files with header := true } rfl rfl
    (hstart.consumeAll law hvalid hapart rfl rfl)

/-- The verdict of a restore on what it has stored. -/
def verdict : Fallible Failure (Restorer L) Unit := do
  let r ← get
  if r.summary = false then
    throw (.input "archive is incomplete (no summary); retained entries can be safely replayed")
  if r.conflict then throw .conflict
  if r.missing then throw ⟨3, "archive contains unavailable blobs"⟩

/-- A restore is done by its last flush, or stopped. -/
lemma restore_cases (entries : List Entry) {l : L} {P : Unit → Restorer L → Prop}
    {ops blobs : List Bytes}
    (h : Runs log chainLog Failure.ofIo (do
      forM entries (Restorer.consume log)
      flush log) (begin l files) P (Halted law (evidence law l) files ops blobs)) :
    (∃ r, (restore log entries).exec (begin l files) = (verdict.exec r) ∧ P () r)
      ∨ ∃ failure r, (restore log entries).exec (begin l files) = (.error failure, r)
        ∧ Stopped log l (.error failure) r ∧ Held law (evidence law l) files ops blobs r := by
  have hsplit : restore log entries = (do
      forM entries (Restorer.consume log)
      flush log) >>= fun _ => verdict := by
    unfold restore verdict
    rw [bind_assoc]
  rw [hsplit]
  rcases h with ⟨a, r, hexec, -, hP⟩ | ⟨error, r, hexec, hrefused, hhalted⟩
  · exact .inl ⟨r, exec_bind_of_ok hexec, hP⟩
  · exact .inr ⟨_, r, exec_bind_of_error hexec, ⟨error, rfl, hrefused, hhalted.dropped⟩,
      hhalted.held⟩

/-- A restore without the summary never reports success. -/
lemma restore_part {body : List Entry} (hvalid : ∀ entry ∈ body, entry.Valid) (l : L)
    (hapart : BlobFiles.Apart files (contents body)) :
    ∃ failure r, (restore log (.header 1 :: body)).exec (begin l files) = (.error failure, r)
      ∧ (Stopped log l (.error failure) r ∨ failure = incomplete)
      ∧ Held law (evidence law l) files (operations body) (contents body) r := by
  have hruns := (consume_body law hvalid l hapart).bind fun _ middle htook =>
    (htook.1.flush law hvalid hapart).mono (R := fun _ r =>
      Stored law (evidence law l) files (operations body) (contents body) r ∧ r.summary = false)
      (fun _ r hdone => ⟨hdone.2.1, hdone.2.2.1.trans htook.2.2⟩) fun _ hhalted => hhalted
  rcases restore_cases law _ hruns with ⟨r, hexec, hstored, hsummary⟩ |
    ⟨failure, r, hexec, hstopped, hheld⟩
  · refine ⟨incomplete, r, ?_, .inr rfl, hstored.held⟩
    rw [hexec]
    unfold verdict
    rw [exec_bind_of_ok (exec_get r), exec_guard, if_pos hsummary]
    rfl
  · exact ⟨failure, r, hexec, .inl hstopped, hheld⟩

/-- A restore of nothing. -/
lemma restore_nil (l : L) (files : BlobFiles) :
    ∃ failure r, (restore log []).exec (begin l files) = (.error failure, r)
      ∧ (Stopped log l (.error failure) r ∨ failure = incomplete)
      ∧ Held law (evidence law l) files [] [] r := by
  have hnone : BlobFiles.Apart files (contents []) := ⟨nofun, nofun⟩
  have hruns := ((took_begin law l files).flush law (by simp) hnone).mono (R := fun _ r =>
    Stored law (evidence law l) files [] [] r ∧ r.summary = false)
    (fun _ r hdone => ⟨hdone.2.1, hdone.2.2.1⟩) fun _ hhalted => hhalted
  rcases restore_cases law [] hruns with ⟨r, hexec, hstored, hsummary⟩ |
    ⟨failure, r, hexec, hstopped, hheld⟩
  · refine ⟨incomplete, r, ?_, .inr rfl, hstored.held⟩
    rw [hexec]
    unfold verdict
    rw [exec_bind_of_ok (exec_get r), exec_guard, if_pos hsummary]
    rfl
  · exact ⟨failure, r, hexec, .inl hstopped, hheld⟩

/-- A restore of a whole archive stores it, and succeeds unless there are conflicts. -/
lemma restore_whole {body : List Entry} (hvalid : ∀ entry ∈ body, entry.Valid) (l : L)
    (hapart : BlobFiles.Apart files (contents body)) {stats : ChainReadStats}
    (hcount : stats.accepted + stats.quarantined = (operations body).length)
    (hundecodable : stats.undecodable = 0) (htails : stats.incompleteTails = 0) :
    ∃ result r, (restore log (.header 1 :: body ++ [.summary stats])).exec (begin l files)
        = (result, r)
      ∧ Held law (evidence law l) files (operations body) (contents body) r
      ∧ (Stopped log l result r ∨ (result = .ok () ∨ result = .error .conflict)
        ∧ Stored law (evidence law l) files (operations body) (contents body) r) := by
  have hlast : ∀ middle : Restorer L, Took law (evidence law l) files body middle ∧
      middle.header = true ∧ middle.summary = false →
      Runs log chainLog Failure.ofIo (Restorer.consume log (.summary stats)) middle
        (fun _ r => Took law (evidence law l) files body r ∧ r.summary = true)
        (Halted law (evidence law l) files (operations body) (contents body)) := by
    rintro middle ⟨htook, hheader, hsummary⟩
    have hdone : Took law (evidence law l) files body { middle with summary := true } := by
      obtain ⟨ops, blobs, hops, hblobs, hstored⟩ := htook.batches
      exact ⟨⟨ops, blobs, hops, hblobs, hstored.coherent, hstored.records, hstored.files⟩,
        htook.waiting, htook.count, htook.missing⟩
    have henter : (enter (.summary stats)).exec middle
        = (.ok (), { middle with summary := true }) := by
      unfold Restorer.enter
      dsimp only
      rw [exec_bind_of_ok (exec_modify _ middle), exec_bind_of_ok (exec_get _), exec_guard,
        if_neg (by rw [hcount]; exact not_not.mpr htook.count.symm), if_neg (by omega)]
      rfl
    refine .of_exec (do
      let r ← get
      if r.full then Restorer.flush log) { middle with summary := true } ?_ rfl
      ((hdone.flushIf law hvalid hapart).mono (fun _ r hsettled => ⟨hsettled.1, hsettled.2.1⟩)
        fun _ hhalted => hhalted)
    unfold Restorer.consume
    rw [exec_bind_of_ok (exec_get middle), exec_guard, if_neg (by rw [hsummary]; simp),
      if_neg (by rw [hheader]; simp), exec_bind_of_ok henter]
  have hall : Runs log chainLog Failure.ofIo
      (forM (.header 1 :: body ++ [.summary stats]) (Restorer.consume log)) (begin l files)
      (fun _ r => Took law (evidence law l) files body r ∧ r.summary = true)
      (Halted law (evidence law l) files (operations body) (contents body)) := by
    rw [List.forM_append]
    refine (consume_body law hvalid l hapart).bind fun _ middle htook => ?_
    rw [List.forM_cons]
    exact (hlast middle htook).bind fun _ r hdone => .of_ok rfl rfl hdone
  have hruns := hall.bind fun _ middle htook =>
    (htook.1.flush law hvalid hapart).mono (R := fun _ r =>
      (Stored law (evidence law l) files (operations body) (contents body) r ∧ r.summary = true)
        ∧ r.missing = false)
      (fun _ r hdone => ⟨⟨hdone.2.1, hdone.2.2.1.trans htook.2⟩, hdone.1.missing⟩)
      fun _ hhalted => hhalted
  rcases restore_cases law _ hruns with ⟨r, hexec, ⟨hstored, hsummary⟩, hmissing⟩ |
    ⟨failure, r, hexec, hstopped, hheld⟩
  · refine ⟨if r.conflict then .error .conflict else .ok (), r, ?_, hstored.held,
      .inr ⟨?_, hstored⟩⟩
    · rw [hexec]
      unfold verdict
      rw [exec_bind_of_ok (exec_get r), exec_guard, if_neg (by rw [hsummary]; simp), exec_guard]
      cases hconflict : r.conflict with
      | true => rfl
      | false =>
        rw [if_neg (by simp), hmissing]
        rfl
    · cases r.conflict with
      | true => exact .inr rfl
      | false => exact .inl rfl
  · exact ⟨_, r, hexec, hheld, .inl hstopped⟩

/-- However much of an archive a chain holds already, a restore of the whole archive gives it the
rest. -/
lemma Held.restored {start : Finset (OpId × Bytes)} {body : List Entry}
    (hvalid : ∀ entry ∈ body, entry.Valid) (hapart : BlobFiles.Apart files (contents body))
    (h : Held law start files (operations body) (contents body) r) {stats : ChainReadStats}
    (hcount : stats.accepted + stats.quarantined = (operations body).length)
    (hundecodable : stats.undecodable = 0) (htails : stats.incompleteTails = 0) :
    ∃ result r', (restore log (.header 1 :: body ++ [.summary stats])).exec
        (begin r.store.log r.files) = (result, r')
      ∧ (Stopped log r.store.log result r' ∨ (result = .ok () ∨ result = .error .conflict)
        ∧ Stored law start files (operations body) (contents body) r') := by
  have hagain : BlobFiles.Apart r.files (contents body) := by
    refine ⟨hapart.distinct, fun a ha b hb => ?_⟩
    rcases h.blobs _ b hb with hold | ⟨hin, hhash⟩
    · exact hapart.fresh a ha b hold
    · exact hapart.distinct b hin a ha hhash
  obtain ⟨result, r', hrestore, -, hends⟩ :=
    restore_whole law hvalid r.store.log hagain hcount hundecodable htails
  refine ⟨result, r', hrestore, hends.imp_right fun hdone => ⟨hdone.1, hdone.2.coherent,
    fun id bytes => ?_, fun hash bytes => ?_⟩⟩
  · rw [hdone.2.records]
    constructor
    · rintro (hold | hnew)
      · exact h.records id bytes hold
      · exact .inr hnew
    · exact Or.imp_left fun hstart => h.kept hstart
  · rw [hdone.2.files]
    constructor
    · rintro (hold | hnew)
      · exact h.blobs hash bytes hold
      · exact .inr hnew
    · exact Or.imp_left fun hfile => h.stays hash bytes hfile

end Restorer
end EditChain.Cli
