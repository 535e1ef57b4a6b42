import EditChain.Store.LogTheorems
import EditChain.Sync.Adapter
import EditChain.Sync.StorageTheorems

/-!
# A replica over portable adapters keeps its promises

Over any log that honours the contract of an adapter, whatever fails: the retained evidence is the
replay of the log, what was acknowledged or shown is durable, nothing is appended twice, and only
what the policy permits leaves.
-/

namespace EditChain.Sync

open Core Fallible Store
open Std (ExtTreeMap ExtTreeSet)

variable {Op : Type} [Schema Op] [Blake3]

/-! ## Replaying records into a snapshot -/

/-- The records of a snapshot after a replay are the old ones and the replayed ones. -/
lemma record_insertAll {l : List Bytes} {s t : Snapshot}
    (h : (insertAll l).exec s = (.ok (), t)) (key : RecordKey) (bytes : Bytes) :
    t.record key = some bytes
      ↔ s.record key = some bytes ∨ bytes ∈ l ∧ RecordKey.fromEncoded bytes = .ok key := by
  induction l generalizing s with
  | nil =>
    cases h
    simp
  | cons b l ih =>
    unfold insertAll at h
    obtain ⟨k, u, hinsert, hrest⟩ := exec_bind_eq_ok.mp h
    rw [ih hrest, Snapshot.record_insertEncoded hinsert, List.mem_cons]
    constructor
    · rintro ((hs | ⟨rfl, hk⟩) | ⟨hmem, hk⟩)
      · exact .inl hs
      · exact .inr ⟨.inl rfl, hk⟩
      · exact .inr ⟨.inr hmem, hk⟩
    · rintro (hs | ⟨rfl | hmem, hk⟩)
      · exact .inl (.inl hs)
      · exact .inl (.inr ⟨rfl, hk⟩)
      · exact .inr ⟨hmem, hk⟩

/-- Everything that was replayed derives a key. -/
lemma derived_insertAll {l : List Bytes} {s t : Snapshot}
    (h : (insertAll l).exec s = (.ok (), t)) {bytes : Bytes} (hmem : bytes ∈ l) :
    ∃ key, RecordKey.fromEncoded bytes = .ok key := by
  induction l generalizing s with
  | nil => cases hmem
  | cons b l ih =>
    unfold insertAll at h
    obtain ⟨k, u, hinsert, hrest⟩ := exec_bind_eq_ok.mp h
    rcases List.mem_cons.mp hmem with rfl | htail
    · obtain ⟨hkey, -, -⟩ := Snapshot.exec_insertEncoded_eq_ok hinsert
      exact ⟨k, hkey⟩
    · exact ih hrest htail

/-- Replaying one record more. -/
lemma insertAll_append_singleton {l : List Bytes} {bytes : Bytes} {s t u : Snapshot}
    {key : RecordKey} (h : (insertAll l).exec s = (.ok (), t))
    (hinsert : (Snapshot.insertEncoded bytes).exec t = (.ok key, u)) :
    (insertAll (l ++ [bytes])).exec s = (.ok (), u) := by
  induction l generalizing s with
  | nil =>
    cases h
    show (Snapshot.insertEncoded bytes >>= fun _ => insertAll []).exec _ = _
    rw [exec_bind_of_ok hinsert]
    rfl
  | cons b l ih =>
    unfold insertAll at h
    obtain ⟨k, v, hfirst, hrest⟩ := exec_bind_eq_ok.mp h
    show (Snapshot.insertEncoded b >>= fun _ => insertAll (l ++ [bytes])).exec s = _
    rw [exec_bind_of_ok hfirst]
    exact ih hrest

/-! ## Filtered snapshots -/

omit [Blake3] in
lemma mem_permitted {permits : RecordKey → Bytes → Except IoError Bool}
    {entries : List (RecordKey × Bytes)} {keys : List RecordKey}
    (h : permitted permits entries = .ok keys) {key : RecordKey} (hkey : key ∈ keys) :
    ∃ bytes, (key, bytes) ∈ entries ∧ permits key bytes = .ok true := by
  induction entries generalizing keys with
  | nil =>
    cases h
    cases hkey
  | cons entry entries ih =>
    obtain ⟨k, b⟩ := entry
    unfold permitted at h
    obtain ⟨share, hshare, h⟩ := bind_eq_ok.mp h
    obtain ⟨rest, hrest, h⟩ := bind_eq_ok.mp h
    rw [pure_eq_ok] at h
    have htail : key ∈ rest → ∃ bytes, (key, bytes) ∈ (k, b) :: entries
        ∧ permits key bytes = .ok true := by
      intro hmem
      obtain ⟨bytes, hb, hp⟩ := ih hrest hmem
      exact ⟨bytes, List.mem_cons_of_mem _ hb, hp⟩
    cases share with
    | false =>
      subst h
      exact htail hkey
    | true =>
      subst h
      rcases List.mem_cons.mp hkey with rfl | hmem
      · exact ⟨b, List.mem_cons_self, hshare⟩
      · exact htail hmem

/-- A filtered snapshot holds records of the original that the predicate permits. -/
lemma Snapshot.record_filtered {snapshot part : Snapshot}
    {permits : RecordKey → Bytes → Except IoError Bool}
    (h : snapshot.filtered permits = .ok part) {key : RecordKey} {bytes : Bytes}
    (hpart : part.record key = some bytes) :
    snapshot.record key = some bytes ∧ permits key bytes = .ok true := by
  unfold Snapshot.filtered at h
  obtain ⟨keys, hkeys, h⟩ := bind_eq_ok.mp h
  rw [pure_eq_ok] at h
  subst h
  have hpart' : (snapshot.records.filter fun k _ => decide (k ∈ keys))[key]? = some bytes := hpart
  rw [ExtTreeMap.getElem?_filter', Option.filter_eq_some_iff] at hpart'
  obtain ⟨hrecord, hmem⟩ := hpart'
  obtain ⟨b, hb, hpermits⟩ := mem_permitted hkeys (of_decide_eq_true hmem)
  have hsame : snapshot.records[key]? = some b := ExtTreeMap.mem_toList_iff_getElem?_eq_some.mp hb
  rw [hrecord] at hsame
  cases hsame
  exact ⟨hrecord, hpermits⟩

omit [Schema Op] in
/-- Accepted content fits, hashes to its address and has every declared length. -/
lemma validateContent_eq_ok {references : ExtTreeMap Digest (List ℕ)} {hash : Digest}
    {bytes : Bytes} :
    validateContent references hash bytes = .ok ()
      ↔ bytes.length ≤ maxObjectBytes ∧ Blake3.hash bytes = hash
        ∧ matchesLen references hash bytes.length = true := by
  unfold validateContent
  by_cases h : maxObjectBytes < bytes.length ∨ Blake3.hash bytes ≠ hash
      ∨ ¬ matchesLen references hash bytes.length
  · rw [if_pos h]
    simp only [reduceCtorEq, false_iff]
    rintro ⟨hle, hhash, hlen⟩
    rcases h with h | h | h
    · omega
    · exact h hhash
    · exact h hlen
  · rw [if_neg h]
    simp only [not_or, not_lt, not_not] at h
    simp [h]

namespace StoreReplica

variable {L B P : Type} (adapters : Adapters L B P)

/-! ## A replica is a lawful storage -/

section Storage

variable [ContentSchema Op]

lemma exec_references_eq_ok {snapshot : Snapshot} {key : RecordKey} {exporting : Bool}
    {s t : StoreReplica L B P} {references : ExtTreeMap Digest (List ℕ)}
    (h : (StoreReplica.references adapters snapshot key exporting).exec s = (.ok references, t)) :
    t = s ∧ ∃ bytes op, snapshot.record key = some bytes ∧ Schema.decodeOp bytes = .ok op
      ∧ references = ContentSchema.references op
      ∧ (exporting → adapters.policy.shareRecord s.policy key bytes = .ok true) := by
  unfold StoreReplica.references ensureScope ask at h
  obtain ⟨_, s₁, hcheck, hrest⟩ := exec_bind_eq_ok.mp h
  rw [exec_bind_of_ok (exec_get s), exec_lift, Prod.mk.injEq] at hcheck
  rw [← hcheck.2] at hrest
  cases hrecord : snapshot.record key with
  | none =>
    rw [hrecord] at hrest
    cases hrest
  | some bytes =>
    rw [hrecord] at hrest
    obtain ⟨shared, s₂, hshared, hdecode⟩ := exec_bind_eq_ok.mp hrest
    rw [exec_bind_of_ok (exec_get s), exec_lift, Prod.mk.injEq] at hshared
    rw [← hshared.2] at hdecode
    cases shared with
    | false => cases hdecode
    | true =>
      cases hop : Schema.decodeOp bytes with
      | error error =>
        rw [hop] at hdecode
        cases hdecode
      | ok op =>
        rw [hop] at hdecode
        cases hdecode
        refine ⟨rfl, bytes, op, rfl, hop, rfl, ?_⟩
        intro hexporting
        simpa [hexporting] using hshared.1

omit [ContentSchema Op] in
lemma exec_ingestRecords_eq_ok {batch : List (RecordKey × Bytes)} {s t : StoreReplica L B P}
    {snapshot snapshot' : Snapshot}
    (h : (ingestRecords adapters batch).exec (s, snapshot) = (.ok (), t, snapshot')) :
    (append adapters batch).exec s = (.ok (), t)
      ∧ (insertAll (batch.map Prod.snd)).exec snapshot = (.ok (), snapshot') := by
  unfold ingestRecords at h
  obtain ⟨_, u, happend, hinsert⟩ := exec_bind_eq_ok.mp h
  rw [exec_zoom, Prod.mk.injEq] at happend hinsert
  obtain ⟨hok, rfl⟩ := happend
  obtain ⟨hok', htarget⟩ := hinsert
  rw [Prod.mk.injEq] at htarget
  exact ⟨Prod.ext hok htarget.1, Prod.ext hok' htarget.2⟩

omit [ContentSchema Op] in
/-- An accepted batch was validated. -/
lemma validateRecords_of_append {batch : List (RecordKey × Bytes)} {s t : StoreReplica L B P}
    (h : (append adapters batch).exec s = (.ok (), t)) : validateRecords batch = .ok () := by
  unfold append at h
  obtain ⟨_, u, hvalid, -⟩ := exec_bind_eq_ok.mp h
  exact congrArg Prod.fst hvalid

/-- A replica honours the storage contract of a session, whatever its adapters do. -/
lemma lawfulStorage :
    @LawfulStorage Op _ _ (StoreReplica L B P) _ (StoreReplica.storage adapters) :=
  letI := StoreReplica.storage adapters
  { ingestRecords_contains := by
      intro records s t snapshot snapshot' h key hkey
      obtain ⟨happend, hinsert⟩ := exec_ingestRecords_eq_ok adapters h
      have hvalid := validateRecords_of_append adapters happend
      rw [Snapshot.contains_iff]
      rcases hkey with hkey | hkey
      · obtain ⟨bytes, hbytes⟩ := Snapshot.contains_iff.mp hkey
        exact ⟨bytes, (record_insertAll hinsert key bytes).mpr (.inl hbytes)⟩
      · obtain ⟨⟨k, bytes⟩, hmem, rfl⟩ := List.mem_map.mp hkey
        refine ⟨bytes, (record_insertAll hinsert k bytes).mpr (.inr ⟨?_, ?_⟩)⟩
        · exact List.mem_map.mpr ⟨(k, bytes), hmem, rfl⟩
        · exact validateRecords_derived hvalid hmem
    ingestRecords_record := by
      intro records s t snapshot snapshot' h key bytes hrecord
      obtain ⟨happend, hinsert⟩ := exec_ingestRecords_eq_ok adapters h
      have hvalid := validateRecords_of_append adapters happend
      rcases (record_insertAll hinsert key bytes).mp hrecord with hold | ⟨hmem, hkey⟩
      · exact .inl hold
      · obtain ⟨⟨k, b⟩, hpair, rfl⟩ := List.mem_map.mp hmem
        have hk := validateRecords_derived hvalid hpair
        rw [hkey] at hk
        cases hk
        exact .inr hpair
    blobHashes_eq := by
      intro snapshot key s t hashes h
      have h' : (blobHashes adapters snapshot key).exec s = (.ok hashes, t) := h
      unfold blobHashes at h'
      obtain ⟨references, u, hreferences, hhashes⟩ := exec_bind_eq_ok.mp h'
      obtain ⟨-, bytes, op, hrecord, hop, rfl, -⟩ := exec_references_eq_ok adapters hreferences
      cases hhashes
      refine ⟨bytes, hrecord, ?_⟩
      intro hash
      rw [ExtTreeSet.mem_ofList, List.contains_iff_mem, ExtTreeMap.mem_keys]
      constructor
      · intro hmem
        exact ⟨op, hop, hmem⟩
      · rintro ⟨op', hop', hmem⟩
        rw [hop] at hop'
        cases hop'
        exact hmem
    ingestBlob_hash := by
      intro key hash bytes s t h
      have h' : (ingestBlob adapters key hash bytes).exec s = (.ok (), t) := h
      unfold ingestBlob at h'
      obtain ⟨snapshot, s₁, -, h'⟩ := exec_bind_eq_ok.mp h'
      obtain ⟨references, s₂, -, h'⟩ := exec_bind_eq_ok.mp h'
      obtain ⟨_, s₃, hvalid, -⟩ := exec_bind_eq_ok.mp h'
      exact (validateContent_eq_ok.mp (congrArg Prod.fst hvalid)).2.1 }

end Storage

/-! ## What a call leaves -/

variable (law : Lawful adapters.log)

/-- The bytes in the log. -/
def bytesOf (s : StoreReplica L B P) : List Bytes := (law.contents s.log).map Record.data

/-- Replaying the bytes gives the snapshot. -/
def Replays (bytes : List Bytes) (snapshot : Snapshot) : Prop :=
  (insertAll bytes).exec .empty = (.ok (), snapshot)

/-- The retained evidence is the replay of the log. -/
def Coherent (s : StoreReplica L B P) : Prop :=
  ∀ snapshot, s.retained = some snapshot → Replays (bytesOf adapters law s) snapshot

/-- New records, each once. -/
def Fresh (old new : List Bytes) : Prop := new.Nodup ∧ ∀ bytes ∈ new, bytes ∉ old

omit [Schema Op] [Blake3] in
lemma Fresh.append {old new more : List Bytes} (h : Fresh old new) (h' : Fresh (old ++ new) more) :
    Fresh old (new ++ more) := by
  refine ⟨List.nodup_append.mpr ⟨h.1, h'.1, ?_⟩, ?_⟩
  · intro a ha b hb heq
    exact h'.2 b hb (List.mem_append_right _ (heq ▸ ha))
  · intro b hb
    rcases List.mem_append.mp hb with hb | hb
    · exact h.2 b hb
    · intro hold
      exact h'.2 b hb (List.mem_append_left _ hold)

omit [Schema Op] [Blake3] in
/-- A prefix of new records is new. -/
lemma Fresh.of_prefix {old new part : List Bytes} (h : Fresh old new) (hpart : part <+: new) :
    Fresh old part :=
  ⟨h.1.sublist hpart.sublist, fun b hb => h.2 b (hpart.subset hb)⟩

/-- A call that at most appends new records and keeps what is durable. -/
structure Grows (s t : StoreReplica L B P) : Prop where
  coherent : Coherent adapters law t
  bytes : ∃ new, bytesOf adapters law t = bytesOf adapters law s ++ new
    ∧ Fresh (bytesOf adapters law s) new
  durable : ∀ bytes, law.Durable s.log bytes → law.Durable t.log bytes

/-- A call that appends nothing. -/
structure Steady (s t : StoreReplica L B P) : Prop where
  policy : t.policy = s.policy
  coherent : Coherent adapters law t
  bytes : bytesOf adapters law t = bytesOf adapters law s
  durable : ∀ bytes, law.Durable s.log bytes → law.Durable t.log bytes

/-- Everything in the log is durable. -/
def AllDurable (s : StoreReplica L B P) : Prop :=
  ∀ bytes ∈ bytesOf adapters law s, law.Durable s.log bytes

variable {adapters law} {s t u : StoreReplica L B P}

lemma Steady.refl (hs : Coherent adapters law s) : Steady adapters law s s :=
  ⟨rfl, hs, rfl, fun _ h => h⟩

lemma Steady.trans (h : Steady adapters law s t) (h' : Steady adapters law t u) :
    Steady adapters law s u where
  policy := h'.policy.trans h.policy
  coherent := h'.coherent
  bytes := h'.bytes.trans h.bytes
  durable bytes hb := h'.durable bytes (h.durable bytes hb)

lemma Steady.grows (h : Steady adapters law s t) : Grows adapters law s t where
  coherent := h.coherent
  bytes := ⟨[], by rw [h.bytes, List.append_nil], List.nodup_nil, by simp⟩
  durable := h.durable

lemma Grows.trans (h : Grows adapters law s t) (h' : Grows adapters law t u) :
    Grows adapters law s u where
  coherent := h'.coherent
  bytes := by
    obtain ⟨new, hnew, hfresh⟩ := h.bytes
    obtain ⟨more, hmore, hfresh'⟩ := h'.bytes
    rw [hnew] at hmore hfresh'
    exact ⟨new ++ more, by rw [hmore, List.append_assoc], hfresh.append hfresh'⟩
  durable bytes hb := h'.durable bytes (h.durable bytes hb)

lemma Steady.allDurable (h : Steady adapters law s t) (hs : AllDurable adapters law s) :
    AllDurable adapters law t := by
  intro bytes hbytes
  rw [h.bytes] at hbytes
  exact h.durable bytes (hs bytes hbytes)

/-- The log answers without appending. -/
lemma Steady.of_log (hs : Coherent adapters law s) {log : L}
    (hcontents : law.contents log = law.contents s.log)
    (hdurable : ∀ bytes, law.Durable s.log bytes → law.Durable log bytes) :
    Steady adapters law s { s with log := log } := by
  refine ⟨rfl, ?_, congrArg (List.map Record.data) hcontents, hdurable⟩
  intro snapshot hsnapshot
  show Replays ((law.contents log).map Record.data) snapshot
  rw [hcontents]
  exact hs snapshot hsnapshot

/-- Forgetting the evidence changes nothing else. -/
lemma Steady.forget (h : Steady adapters law s t) : Steady adapters law s (t.retain none) :=
  ⟨h.policy, fun snapshot hnone => (by cases hnone), h.bytes, h.durable⟩

/-! ## The calls -/

lemma wp_sync (hs : Coherent adapters law s) :
    wp (onLog adapters.log.sync)
      (fun _ t => Steady adapters law s t ∧ AllDurable adapters law t)
      (fun _ t => Steady adapters law s t) s := by
  have hsteady : ∀ {result t}, adapters.log.sync.exec s.log = (result, t) →
      Steady adapters law s { s with log := t } := by
    intro result t hsync
    exact Steady.of_log hs (law.contents_sync hsync) fun _ => law.durable_sync hsync
  rw [onLog, wp_zoom]
  apply wp_of_exec
  · intro _ t hsync
    refine ⟨hsteady hsync, ?_⟩
    intro bytes hbytes
    obtain ⟨record, hrecord, rfl⟩ := List.mem_map.mp hbytes
    obtain ⟨e, he, rfl⟩ := List.mem_map.mp hrecord
    exact ⟨e, he, rfl, (law.sync hsync).2 rfl e he⟩
  · intro e t hsync
    exact hsteady hsync

lemma wp_visitRecords (hs : Coherent adapters law s) :
    wp (onLog adapters.log.visitRecords)
      (fun visited t => Steady adapters law s t
        ∧ visited.1.map Record.data = bytesOf adapters law t)
      (fun _ t => Steady adapters law s t) s := by
  have hsteady : ∀ {result t}, adapters.log.visitRecords.exec s.log = (result, t) →
      Steady adapters law s { s with log := t } := by
    intro result t hvisit
    exact Steady.of_log hs (law.contents_visit hvisit) fun _ => law.durable_visit hvisit
  rw [onLog, wp_zoom]
  apply wp_of_exec
  · rintro ⟨records, stats⟩ t hvisit
    refine ⟨hsteady hvisit, ?_⟩
    show records.map Record.data = (law.contents t).map Record.data
    rw [law.contents_visit hvisit, (law.visit hvisit).2 records stats rfl]
    rfl
  · intro e t hvisit
    exact hsteady hvisit

/-- A call of the log leaves the retained evidence alone. -/
lemma wp_retained {α : Type} (m : Fallible IoError L α) :
    wp (onLog m) (fun _ t => t.retained = s.retained) (fun _ t => t.retained = s.retained) s := by
  rw [onLog, wp_zoom]
  apply wp_of_exec
  · intro _ _ _
    rfl
  · intro _ _ _
    rfl

lemma wp_readRetained (hs : Coherent adapters law s) :
    wp (readRetained adapters)
      (fun snapshot t => Steady adapters law s t ∧ Replays (bytesOf adapters law t) snapshot)
      (fun _ t => Steady adapters law s t) s := by
  unfold readRetained
  rw [wp_bind]
  apply wp_mono (wp_sync hs)
  · rintro _ s₁ ⟨h₁, -⟩
    rw [wp_bind]
    apply wp_mono (wp_visitRecords h₁.coherent)
    · rintro ⟨records, stats⟩ s₂ ⟨h₂, hrecords⟩
      have h₁₂ := h₁.trans h₂
      simp only [wp_bind, wp_lift, wp_pure]
      refine ⟨?_, fun e _ => h₁₂⟩
      intro _ hok
      refine ⟨h₁₂, ?_⟩
      show (insertAll (bytesOf adapters law s₂)).exec .empty = _
      rw [← hrecords]
      exact Prod.ext hok rfl
    · intro e s₂ h₂
      exact h₁.trans h₂
  · intro e s₁ h₁
    exact h₁

lemma wp_retainedEvidence (hs : Coherent adapters law s) :
    wp (retainedEvidence adapters)
      (fun snapshot t => Steady adapters law s t ∧ Replays (bytesOf adapters law t) snapshot)
      (fun _ t => Steady adapters law s t) s := by
  unfold retainedEvidence
  rw [wp_bind, wp_get]
  cases hretained : s.retained with
  | some snapshot => exact ⟨Steady.refl hs, hs snapshot hretained⟩
  | none =>
    rw [wp_bind]
    apply wp_mono (wp_readRetained hs)
    · rintro snapshot t ⟨hsteady, hreplays⟩
      simp only [wp_bind, wp_modify, wp_pure]
      refine ⟨⟨hsteady.policy, ?_, hsteady.bytes, hsteady.durable⟩, hreplays⟩
      intro kept hkept
      cases hkept
      exact hreplays
    · intro e t h
      exact h

lemma wp_ensureScope : wp (ensureScope adapters) (fun _ t => t = s) (fun _ t => t = s) s := by
  unfold ensureScope ask
  simp

/-- Freezing records returns durable ones, and to a peer only those the policy permits. -/
lemma wp_records (exporting : Bool) (hs : Coherent adapters law s) :
    wp (records adapters exporting)
      (fun snapshot t => Steady adapters law s t
        ∧ ∀ key bytes, snapshot.record key = some bytes → law.Durable t.log bytes
          ∧ (exporting → adapters.policy.shareRecord s.policy key bytes = .ok true))
      (fun _ t => Steady adapters law s t) s := by
  have hfence : wp (fence adapters)
      (fun _ t => Steady adapters law s t ∧ AllDurable adapters law t)
      (fun _ t => Steady adapters law s t) s := by
    have hsynced := wp_sync hs
    unfold fence
    apply wp_of_exec
    · intro _ t h
      rw [exec_of] at h
      split at h
      · next t' hsync =>
        cases h
        have hdone := wp_eq_ok hsynced hsync
        exact hdone
      · cases h
    · intro e t h
      rw [exec_of] at h
      split at h
      · cases h
      · next error t' hsync =>
        cases h
        exact (wp_eq_error hsynced hsync).forget
  unfold records
  rw [wp_bind]
  apply wp_mono wp_ensureScope
  · rintro _ _ rfl
    rw [wp_bind]
    apply wp_mono hfence
    · rintro _ s₁ ⟨h₁, hdurable⟩
      rw [wp_bind]
      apply wp_mono (wp_retainedEvidence h₁.coherent)
      · rintro snapshot s₂ ⟨h₂, hreplays⟩
        have h₁₂ := h₁.trans h₂
        unfold ask
        simp only [wp_bind, wp_get, wp_lift]
        refine ⟨?_, fun e _ => h₁₂⟩
        intro part hpart
        refine ⟨h₁₂, ?_⟩
        intro key bytes hrecord
        obtain ⟨hwhole, hpermits⟩ := Snapshot.record_filtered hpart hrecord
        rw [record_insertAll hreplays] at hwhole
        refine ⟨?_, ?_⟩
        · rcases hwhole with hempty | ⟨hmem, -⟩
          · simp [Snapshot.record, Snapshot.empty] at hempty
          · exact h₂.allDurable hdurable bytes hmem
        · intro hexporting
          simpa [hexporting, h₁₂.policy] using hpermits
      · intro e s₂ h₂
        exact h₁.trans h₂
    · intro e s₁ h₁
      exact h₁
  · rintro e _ rfl
    exact Steady.refl hs

/-! ## Ingesting records -/

/-- The variables of a batch over a log that holds `old`. -/
structure Classified (old : List Bytes) (batch : Ingest) : Prop where
  replays : Replays (old ++ batch.pending.map Record.data) batch.known
  fresh : Fresh old (batch.pending.map Record.data)

/-- A classified batch: every record is in the log, which is then fenced, or to be appended. -/
lemma exec_classify {old : List Bytes} {records : List (RecordKey × Bytes)} {batch batch' : Ingest}
    (hderived : ∀ record ∈ records, RecordKey.fromEncoded record.2 = .ok record.1)
    (hbatch : Classified old batch) (h : (classify records).exec batch = (.ok (), batch')) :
    Classified old batch'
      ∧ (∀ record ∈ records, record.2 ∈ batch'.pending.map Record.data
          ∨ batch'.duplicate = true ∧ record.2 ∈ old)
      ∧ batch.pending <+: batch'.pending ∧ (batch.duplicate = true → batch'.duplicate = true) := by
  -- the induction is on the records still to classify
  induction records generalizing batch with
  | nil =>
    cases h
    exact ⟨hbatch, by simp, List.prefix_rfl, id⟩
  | cons record records ih =>
    obtain ⟨key, bytes⟩ := record
    have hkey : RecordKey.fromEncoded bytes = .ok key := hderived (key, bytes) List.mem_cons_self
    have hrest : ∀ r ∈ records, RecordKey.fromEncoded r.2 = .ok r.1 :=
      fun r hr => hderived r (List.mem_cons_of_mem _ hr)
    unfold classify at h
    rw [exec_bind_of_ok (exec_get batch)] at h
    cases hknown : batch.known.record key with
    | some previous =>
      rw [hknown] at h
      by_cases hsame : previous = bytes
      · -- the bytes are in the log or earlier in this batch
        subst hsame
        have hmem : previous ∈ old ++ batch.pending.map Record.data := by
          rcases (record_insertAll hbatch.replays key previous).mp hknown with hempty | ⟨hmem, -⟩
          · simp [Snapshot.record, Snapshot.empty] at hempty
          · exact hmem
        simp only [ne_eq, not_true, if_false] at h
        rw [exec_bind_of_ok (exec_set _ _)] at h
        obtain ⟨hclassified, hall, hpending, hduplicate⟩ := ih hrest
          (⟨hbatch.replays, hbatch.fresh⟩ : Classified old { batch with duplicate := true }) h
        refine ⟨hclassified, ?_, hpending, fun _ => hduplicate rfl⟩
        intro r hr
        rcases List.mem_cons.mp hr with rfl | hr
        · rcases List.mem_append.mp hmem with hold | hnew
          · exact .inr ⟨hduplicate rfl, hold⟩
          · exact .inl (List.map_subset _ hpending.subset hnew)
        · exact hall r hr
      · simp only [ne_eq, hsame, not_false_eq_true, if_true] at h
        cases h
    | none =>
      rw [hknown] at h
      have hinsert : (Snapshot.insertEncoded bytes).exec batch.known
          = (.ok key, batch.known.insert key bytes hkey) :=
        Snapshot.exec_insertEncoded hkey (by simp [hknown])
      simp only [hinsert] at h
      rw [exec_bind_of_ok (exec_lift _ _), exec_bind_of_ok (exec_set _ _)] at h
      have hnew : bytes ∉ old ++ batch.pending.map Record.data := by
        intro hmem
        have hrecord := (record_insertAll hbatch.replays key bytes).mpr (.inr ⟨hmem, hkey⟩)
        rw [hknown] at hrecord
        cases hrecord
      have hnext : Classified old
          { batch with
            known := batch.known.insert key bytes hkey
            pending := batch.pending ++ [Record.mk 0 bytes] } := by
        refine ⟨?_, ?_⟩
        · rw [List.map_append, ← List.append_assoc]
          exact insertAll_append_singleton hbatch.replays hinsert
        · rw [List.map_append]
          exact hbatch.fresh.append ⟨List.nodup_singleton _, by simpa using hnew⟩
      obtain ⟨hclassified, hall, hpending, hduplicate⟩ := ih hrest hnext h
      refine ⟨hclassified, ?_, (List.prefix_append _ _).trans hpending, hduplicate⟩
      intro r hr
      rcases List.mem_cons.mp hr with rfl | hr
      · exact .inl (List.map_subset _ hpending.subset (by simp))
      · exact hall r hr

/-- Appending the pending records leaves a prefix of them, or all of them durably. -/
lemma wp_appendPending {batch : Ingest} (hs : s.retained = none)
    (hbatch : Classified (bytesOf adapters law s) batch) :
    wp (onLog (adapters.log.appendRecords batch.pending) >>= fun _ =>
        modify (retain (some batch.known)))
      (fun _ t => Grows adapters law s t
        ∧ ∀ bytes ∈ batch.pending.map Record.data, law.Durable t.log bytes)
      (fun _ t => Grows adapters law s t) s := by
  rw [wp_bind, onLog, wp_zoom]
  apply wp_of_exec
  · intro _ l happend
    obtain ⟨kept, -, hcontents, hok⟩ := law.contents_append happend
    obtain ⟨rfl, hdurable⟩ := hok rfl
    have hbytes : (law.contents l).map Record.data
        = bytesOf adapters law s ++ batch.pending.map Record.data := by
      rw [hcontents, List.map_append]
      rfl
    rw [wp_modify]
    refine ⟨⟨?_, ⟨_, hbytes, hbatch.fresh⟩, fun _ => law.durable_append happend⟩, ?_⟩
    · intro snapshot hsnapshot
      cases hsnapshot
      show Replays ((law.contents l).map Record.data) batch.known
      rw [hbytes]
      exact hbatch.replays
    · intro bytes hmem
      obtain ⟨record, hrecord, rfl⟩ := List.mem_map.mp hmem
      exact hdurable record hrecord
  · intro e l happend
    obtain ⟨kept, hkept, hcontents, -⟩ := law.contents_append happend
    have hbytes : (law.contents l).map Record.data
        = bytesOf adapters law s ++ kept.map Record.data := by
      rw [hcontents, List.map_append]
      rfl
    refine ⟨?_, ⟨_, hbytes, hbatch.fresh.of_prefix (hkept.map _)⟩,
      fun _ => law.durable_append happend⟩
    intro snapshot hsnapshot
    rw [show s.retained = none from hs] at hsnapshot
    cases hsnapshot

/-- A commit makes the new records durable and, where some were known, everything before them. -/
lemma wp_commit {batch : Ingest} (hs : s.retained = none)
    (hbatch : Classified (bytesOf adapters law s) batch) :
    wp (commit adapters batch)
      (fun _ t => Grows adapters law s t
        ∧ (∀ bytes ∈ batch.pending.map Record.data, law.Durable t.log bytes)
        ∧ (batch.duplicate = true → ∀ bytes ∈ bytesOf adapters law s, law.Durable t.log bytes))
      (fun _ t => Grows adapters law s t) s := by
  have hcoherent : Coherent adapters law s := by
    intro snapshot hsnapshot
    rw [hs] at hsnapshot
    cases hsnapshot
  unfold commit
  by_cases hduplicate : batch.duplicate = true
  · rw [if_pos hduplicate, wp_bind]
    apply wp_mono (wp_and (wp_sync hcoherent) (wp_retained adapters.log.sync))
    · rintro _ s₁ ⟨⟨h₁, hdurable⟩, hretained⟩
      rw [← h₁.bytes] at hbatch
      apply wp_mono (wp_appendPending (hretained.trans hs) hbatch)
      · rintro _ s₂ ⟨h₂, hpending⟩
        refine ⟨h₁.grows.trans h₂, hpending, ?_⟩
        intro _ bytes hbytes
        rw [← h₁.bytes] at hbytes
        exact h₂.durable bytes (hdurable bytes hbytes)
      · intro e s₂ h₂
        exact h₁.grows.trans h₂
    · rintro e s₁ ⟨h₁, -⟩
      exact h₁.grows
  · rw [if_neg hduplicate]
    apply wp_mono (wp_appendPending hs hbatch)
    · rintro _ t ⟨hgrows, hpending⟩
      exact ⟨hgrows, hpending, fun hd => absurd hd hduplicate⟩
    · intro e t hgrows
      exact hgrows

/-- An acknowledged batch is durable; a failed one leaves part of its new records. -/
lemma wp_append {batch : List (RecordKey × Bytes)} (hs : Coherent adapters law s) :
    wp (append adapters batch)
      (fun _ t => Grows adapters law s t ∧ ∀ record ∈ batch, law.Durable t.log record.2)
      (fun _ t => Grows adapters law s t) s := by
  have hrefl : Grows adapters law s s := (Steady.refl hs).grows
  unfold append
  simp only [wp_bind, wp_lift]
  refine ⟨?_, fun e _ => hrefl⟩
  intro _ hvalid
  apply wp_mono wp_ensureScope
  · rintro _ s rfl
    apply wp_mono (wp_retainedEvidence hs)
    · rintro known s₁ ⟨h₁, hreplays⟩
      rw [wp_modify]
      have h₂ : Steady adapters law s (s₁.retain none) := h₁.forget
      refine ⟨?_, fun e _ => h₂.grows⟩
      intro _ hclassify
      have hstart : Classified (bytesOf adapters law s₁) { known := known } :=
        ⟨by simpa using hreplays, List.nodup_nil, by simp⟩
      obtain ⟨hclassified, hall, -, -⟩ := exec_classify
        (fun record hrecord => validateRecords_derived hvalid hrecord) hstart
        (Prod.ext hclassify rfl)
      have hcommit := wp_commit (s := s₁.retain none) rfl hclassified
      apply wp_mono hcommit
      · rintro _ t ⟨hgrows, hpending, hold⟩
        refine ⟨h₂.grows.trans hgrows, ?_⟩
        intro record hrecord
        rcases hall record hrecord with hnew | ⟨hduplicate, hknown⟩
        · exact hpending _ hnew
        · exact hold hduplicate _ hknown
      · intro e t hgrows
        exact h₂.grows.trans hgrows
    · intro e t h
      exact h.grows
  · rintro e _ rfl
    exact hrefl

/-! ## Content -/

section Content

variable [ContentSchema Op]

omit [ContentSchema Op] in
lemma wp_ask {α : Type} {question : P → Except IoError α} :
    wp (ask question) (fun answer t => t = s ∧ question s.policy = .ok answer)
      (fun _ t => t = s) s := by
  unfold ask
  simp only [wp_bind, wp_get, wp_lift]
  exact ⟨fun answer hanswer => ⟨trivial, hanswer⟩, fun _ _ => trivial⟩

/-- Looking up references asks, and changes nothing. -/
lemma wp_references {snapshot : Snapshot} {key : RecordKey} {exporting : Bool} :
    wp (StoreReplica.references adapters snapshot key exporting)
      (fun references t => t = s ∧ ∃ bytes op, snapshot.record key = some bytes
        ∧ Schema.decodeOp bytes = .ok op ∧ references = ContentSchema.references op
        ∧ (exporting → adapters.policy.shareRecord s.policy key bytes = .ok true))
      (fun _ t => t = s) s := by
  apply wp_of_exec
  · intro references t h
    exact exec_references_eq_ok adapters h
  · intro e t h
    unfold StoreReplica.references at h
    rcases exec_bind_eq_error.mp h with hcheck | ⟨_, s₁, hcheck, hrest⟩
    · have hsame := wp_eq_error wp_ensureScope hcheck
      exact hsame
    · have hs₁ := wp_eq_ok wp_ensureScope hcheck
      rw [hs₁] at hrest
      cases hrecord : snapshot.record key with
      | none =>
        rw [hrecord] at hrest
        cases hrest
        rfl
      | some bytes =>
        rw [hrecord] at hrest
        rcases exec_bind_eq_error.mp hrest with hshared | ⟨shared, s₂, hshared, hdecode⟩
        · have hsame := wp_eq_error wp_ask hshared
          exact hsame
        · have hs₂ := (wp_eq_ok wp_ask hshared).1
          rw [hs₂] at hdecode
          cases shared with
          | false =>
            cases hdecode
            rfl
          | true =>
            cases hop : Schema.decodeOp bytes with
            | error error =>
              rw [hop] at hdecode
              cases hdecode
              rfl
            | ok op =>
              rw [hop] at hdecode
              cases hdecode

omit [ContentSchema Op] in
/-- A call of the blob storage leaves the log, the evidence and the policy alone. -/
lemma wp_onBlobs {α : Type} (hs : Coherent adapters law s) (m : Fallible IoError B α) :
    wp (onBlobs m) (fun _ t => Steady adapters law s t) (fun _ t => Steady adapters law s t) s := by
  rw [onBlobs, wp_zoom]
  apply wp_of_exec
  · intro _ _ _
    exact ⟨rfl, hs, rfl, fun _ h => h⟩
  · intro _ _ _
    exact ⟨rfl, hs, rfl, fun _ h => h⟩

omit [ContentSchema Op] in
/-- Content is referenced and hashes to its address. -/
lemma wp_content {references : ExtTreeMap Digest (List ℕ)} {hash : Digest}
    (hs : Coherent adapters law s) :
    wp (content adapters references hash)
      (fun found t => Steady adapters law s t
        ∧ ∀ bytes, found = some bytes → hash ∈ references ∧ Blake3.hash bytes = hash)
      (fun _ t => Steady adapters law s t) s := by
  unfold content
  rw [wp_guard]
  refine ⟨fun _ => Steady.refl hs, ?_⟩
  intro hreferenced
  rw [wp_bind]
  apply wp_mono (wp_onBlobs hs _)
  · intro resolution t hsteady
    cases resolution with
    | found bytes =>
      simp only [wp_bind, wp_lift, wp_pure]
      refine ⟨?_, fun _ _ => hsteady⟩
      intro _ hvalid
      refine ⟨hsteady, ?_⟩
      intro b hb
      cases hb
      exact ⟨by simpa using hreferenced, (validateContent_eq_ok.mp hvalid).2.1⟩
    | missing => exact ⟨hsteady, fun b hb => (by cases hb)⟩
    | corrupt => exact hsteady
    | unresolvable => exact hsteady
  · intro e t hsteady
    exact hsteady

omit [ContentSchema Op] in
lemma wp_publishBlob {hash : Digest} {bytes : Bytes} (hs : Coherent adapters law s) :
    wp (publishBlob adapters hash bytes) (fun _ t => Steady adapters law s t)
      (fun _ t => Steady adapters law s t) s := by
  unfold publishBlob
  rw [wp_guard]
  refine ⟨fun _ => Steady.refl hs, ?_⟩
  intro _
  rw [wp_bind]
  apply wp_mono (wp_onBlobs hs _)
  · intro published t hsteady
    rw [wp_ite]
    exact ⟨fun _ => hsteady, fun _ => hsteady⟩
  · intro e t hsteady
    exact hsteady

/-- Content that leaves is referenced by a record of the snapshot, and the policy permits both. -/
def MayLeave (adapters : Adapters L B P) (policy : P) (snapshot : Snapshot) (key : RecordKey)
    (hash : Digest) (bytes : Bytes) : Prop :=
  Blake3.hash bytes = hash ∧ ∃ encoded, snapshot.record key = some encoded
    ∧ References encoded hash
    ∧ adapters.policy.shareRecord policy key encoded = .ok true
    ∧ adapters.policy.shareBlob policy key hash = .ok true

lemma wp_readBlob {snapshot : Snapshot} {key : RecordKey} {hash : Digest}
    (hs : Coherent adapters law s) :
    wp (readBlob adapters snapshot key hash)
      (fun found t => Steady adapters law s t ∧ ∀ bytes, found = some bytes →
        MayLeave adapters s.policy snapshot key hash bytes)
      (fun _ t => Steady adapters law s t) s := by
  unfold readBlob
  rw [wp_bind]
  apply wp_mono wp_references
  · rintro references s ⟨rfl, bytes, op, hrecord, hop, rfl, hshare⟩
    rw [wp_bind]
    apply wp_mono wp_ask
    · rintro share s ⟨rfl, hblob⟩
      cases share with
      | false => exact ⟨Steady.refl hs, fun b hb => (by cases hb)⟩
      | true =>
        apply wp_mono (wp_content hs)
        · rintro found t ⟨hsteady, hfound⟩
          refine ⟨hsteady, ?_⟩
          intro b hb
          obtain ⟨hmem, hhash⟩ := hfound b hb
          exact ⟨hhash, bytes, hrecord, ⟨op, hop, hmem⟩, hshare rfl, hblob⟩
        · intro e t hsteady
          exact hsteady
    · rintro e s rfl
      exact Steady.refl hs
  · rintro e s rfl
    exact Steady.refl hs

lemma wp_blobHashes {snapshot : Snapshot} {key : RecordKey} (hs : Coherent adapters law s) :
    wp (blobHashes adapters snapshot key) (fun _ t => Steady adapters law s t)
      (fun _ t => Steady adapters law s t) s := by
  unfold blobHashes
  rw [wp_bind]
  apply wp_mono wp_references
  · rintro references s ⟨rfl, -⟩
    exact Steady.refl hs
  · rintro e s rfl
    exact Steady.refl hs

lemma wp_ingestBlob {key : RecordKey} {hash : Digest} {bytes : Bytes}
    (hs : Coherent adapters law s) :
    wp (ingestBlob adapters key hash bytes) (fun _ t => Steady adapters law s t)
      (fun _ t => Steady adapters law s t) s := by
  unfold ingestBlob
  rw [wp_bind]
  apply wp_mono (wp_retainedEvidence hs)
  · rintro snapshot s₁ ⟨h₁, -⟩
    rw [wp_bind]
    apply wp_mono wp_references
    · rintro references s₁ ⟨rfl, -⟩
      simp only [wp_bind, wp_lift]
      refine ⟨?_, fun _ _ => h₁⟩
      intro _ _
      apply wp_mono (wp_publishBlob h₁.coherent)
      · intro _ t h₂
        exact h₁.trans h₂
      · intro e t h₂
        exact h₁.trans h₂
    · rintro e s₁ rfl
      exact h₁
  · intro e s₁ h₁
    exact h₁

lemma wp_confirmBlob {snapshot : Snapshot} {key : RecordKey} {hash : Digest}
    (hs : Coherent adapters law s) :
    wp (confirmBlob adapters snapshot key hash) (fun _ t => Steady adapters law s t)
      (fun _ t => Steady adapters law s t) s := by
  unfold confirmBlob
  rw [wp_bind]
  apply wp_mono wp_references
  · rintro references s ⟨rfl, -⟩
    rw [wp_bind]
    apply wp_mono (wp_content hs)
    · rintro found s₁ ⟨h₁, -⟩
      cases found with
      | none => exact h₁
      | some bytes =>
        simp only [wp_bind, wp_pure]
        apply wp_mono (wp_publishBlob h₁.coherent)
        · intro _ t h₂
          exact h₁.trans h₂
        · intro e t h₂
          exact h₁.trans h₂
    · intro e s₁ h₁
      exact h₁
  · rintro e s rfl
    exact Steady.refl hs

/-! ## Runs -/

/-- The calls of a replica's user, who also owns the policy. -/
inductive Call (P : Type) where
  | snapshot
  | receivingSnapshot
  | ingestRecords (batch : List (RecordKey × Bytes)) (snapshot : Snapshot)
  | blobHashes (snapshot : Snapshot) (key : RecordKey)
  | readBlob (snapshot : Snapshot) (key : RecordKey) (hash : Digest)
  | ingestBlob (key : RecordKey) (hash : Digest) (bytes : Bytes)
  | confirmBlob (snapshot : Snapshot) (key : RecordKey) (hash : Digest)
  | authorize (policy : P)

/-- The records that a successful result promises. -/
def promises {α σ : Type} (records : α → List Bytes) (run : Except IoError α × σ) : List Bytes :=
  match run.1 with
  | .ok a => records a
  | .error _ => []

/-- The replica after a call, and the records the call promised to be durable: those of an
acknowledged batch and those of a returned snapshot. -/
def step (adapters : Adapters L B P) (s : StoreReplica L B P) :
    Call P → StoreReplica L B P × List Bytes
  | .snapshot =>
    let run := (records adapters true).exec s
    (run.2, promises (fun snapshot => snapshot.records.toList.map Prod.snd) run)
  | .receivingSnapshot =>
    let run := (records adapters false).exec s
    (run.2, promises (fun snapshot => snapshot.records.toList.map Prod.snd) run)
  | .ingestRecords batch snapshot =>
    let run := (ingestRecords adapters batch).exec (s, snapshot)
    (run.2.1, promises (fun _ => batch.map Prod.snd) run)
  | .blobHashes snapshot key => (((blobHashes adapters snapshot key).exec s).2, [])
  | .readBlob snapshot key hash => (((readBlob adapters snapshot key hash).exec s).2, [])
  | .ingestBlob key hash bytes => (((ingestBlob adapters key hash bytes).exec s).2, [])
  | .confirmBlob snapshot key hash => (((confirmBlob adapters snapshot key hash).exec s).2, [])
  | .authorize policy => ({ s with policy := policy }, [])

/-- The replica after a sequence of calls, and everything they promised. -/
def run (adapters : Adapters L B P) :
    StoreReplica L B P → List (Call P) → StoreReplica L B P × List Bytes
  | s, [] => (s, [])
  | s, call :: calls =>
    let first := step adapters s call
    let rest := run adapters first.1 calls
    (rest.1, first.2 ++ rest.2)

omit [Blake3] [ContentSchema Op] in
/-- A run that ends well in both outcomes leaves the state well, and keeps its promises. -/
lemma wp_promises {α σ : Type} {m : Fallible IoError σ α} (good : σ → Prop)
    (durable : Bytes → σ → Prop) {records : α → List Bytes} {s : σ}
    (h : wp m (fun a t => good t ∧ ∀ bytes ∈ records a, durable bytes t) (fun _ t => good t) s) :
    good (m.exec s).2 ∧ ∀ bytes ∈ promises records (m.exec s), durable bytes (m.exec s).2 := by
  cases hrun : m.exec s with
  | mk result t =>
    cases result with
    | ok a =>
      have hdone := wp_eq_ok h hrun
      exact hdone
    | error e =>
      have hdone := wp_eq_error h hrun
      refine ⟨hdone, ?_⟩
      intro bytes hbytes
      cases hbytes

omit [Blake3] [ContentSchema Op] in
lemma wp_state {α σ : Type} {m : Fallible IoError σ α} {good : σ → Prop} {s : σ}
    (h : wp m (fun _ t => good t) (fun _ t => good t) s) : good (m.exec s).2 := by
  cases hrun : m.exec s with
  | mk result t =>
    cases result with
    | ok a =>
      have hgood := wp_eq_ok h hrun
      exact hgood
    | error e =>
      have hgood := wp_eq_error h hrun
      exact hgood

omit [ContentSchema Op] in
lemma mem_values {snapshot : Snapshot} {bytes : Bytes}
    (h : bytes ∈ snapshot.records.toList.map Prod.snd) :
    ∃ key, snapshot.record key = some bytes := by
  obtain ⟨⟨key, b⟩, hmem, rfl⟩ := List.mem_map.mp h
  exact ⟨key, ExtTreeMap.mem_toList_iff_getElem?_eq_some.mp hmem⟩

/-- One call keeps the evidence coherent, appends only what is new, and keeps its promises. -/
lemma step_grows (hs : Coherent adapters law s) (call : Call P) :
    Grows adapters law s (step adapters s call).1
      ∧ ∀ bytes ∈ (step adapters s call).2, law.Durable (step adapters s call).1.log bytes := by
  have hfrozen : ∀ exporting : Bool, wp (records adapters exporting)
      (fun snapshot t => Grows adapters law s t
        ∧ ∀ bytes ∈ snapshot.records.toList.map Prod.snd, law.Durable t.log bytes)
      (fun _ t => Grows adapters law s t) s := by
    intro exporting
    apply wp_mono (wp_records exporting hs)
    · rintro snapshot t ⟨hsteady, hdurable⟩
      refine ⟨hsteady.grows, ?_⟩
      intro bytes hbytes
      obtain ⟨key, hkey⟩ := mem_values hbytes
      exact (hdurable key bytes hkey).1
    · intro e t hsteady
      exact hsteady.grows
  have hnothing : ∀ {t : StoreReplica L B P}, Steady adapters law s t →
      Grows adapters law s t ∧ ∀ bytes ∈ ([] : List Bytes), law.Durable t.log bytes :=
    fun hsteady => ⟨hsteady.grows, by simp⟩
  cases call with
  | snapshot =>
    exact wp_promises (Grows adapters law s) (fun bytes t => law.Durable t.log bytes)
      (hfrozen true)
  | receivingSnapshot =>
    exact wp_promises (Grows adapters law s) (fun bytes t => law.Durable t.log bytes)
      (hfrozen false)
  | ingestRecords batch snapshot =>
    apply wp_promises (fun t : StoreReplica L B P × Snapshot => Grows adapters law s t.1)
      (fun bytes (t : StoreReplica L B P × Snapshot) => law.Durable t.1.log bytes)
    unfold ingestRecords
    rw [wp_bind, wp_zoom]
    apply wp_mono (wp_append hs)
    · rintro _ t ⟨hgrows, hdurable⟩
      rw [wp_zoom]
      apply wp_of_exec
      · intro _ _ _
        refine ⟨hgrows, ?_⟩
        intro bytes hbytes
        obtain ⟨record, hrecord, rfl⟩ := List.mem_map.mp hbytes
        exact hdurable record hrecord
      · intro _ _ _
        exact hgrows
    · intro e t hgrows
      exact hgrows
  | blobHashes snapshot key => exact hnothing (wp_state (wp_blobHashes hs))
  | readBlob snapshot key hash =>
    apply hnothing
    apply wp_state
    apply wp_mono (wp_readBlob hs)
    · intro _ _ h
      exact h.1
    · intro _ _ h
      exact h
  | ingestBlob key hash bytes => exact hnothing (wp_state (wp_ingestBlob hs))
  | confirmBlob snapshot key hash => exact hnothing (wp_state (wp_confirmBlob hs))
  | authorize policy =>
    exact ⟨⟨hs, ⟨[], (List.append_nil _).symm, List.nodup_nil, by simp⟩, fun _ h => h⟩, by simp [step]⟩

/-- Every sequence of calls does. -/
lemma run_grows (hs : Coherent adapters law s) (calls : List (Call P)) :
    Grows adapters law s (run adapters s calls).1
      ∧ ∀ bytes ∈ (run adapters s calls).2, law.Durable (run adapters s calls).1.log bytes := by
  induction calls generalizing s with
  | nil => exact ⟨(Steady.refl hs).grows, by simp [run]⟩
  | cons call calls ih =>
    obtain ⟨hstep, hpromised⟩ := step_grows hs call
    obtain ⟨hrest, hlater⟩ := ih hstep.coherent
    refine ⟨hstep.trans hrest, ?_⟩
    intro bytes hbytes
    rcases List.mem_append.mp hbytes with hfirst | hmem
    · exact hrest.durable bytes (hpromised bytes hfirst)
    · exact hlater bytes hmem

/-- Whatever fails along the way: the retained evidence is the replay of the log, every promised
record is durable, nothing is appended twice or again, and a snapshot or content that leaves is
permitted by the policy and, for content, referenced by its record. -/
theorem keeps_promises (adapters : Adapters L B P) (law : Lawful adapters.log) (log : L)
    (blobs : B) (policy : P) (calls : List (Call P)) :
    let s := (run adapters (new log blobs policy) calls).1
    let start := (law.contents log).map Record.data
    (∀ snapshot, s.retained = some snapshot →
        (insertAll ((law.contents s.log).map Record.data)).exec .empty = (.ok (), snapshot))
      ∧ (∀ bytes ∈ (run adapters (new log blobs policy) calls).2, law.Durable s.log bytes)
      ∧ (∃ appended, (law.contents s.log).map Record.data = start ++ appended
          ∧ appended.Nodup ∧ ∀ bytes ∈ appended, bytes ∉ start)
      ∧ (∀ snapshot t, (records adapters true).exec s = (.ok snapshot, t) →
          ∀ key bytes, snapshot.record key = some bytes →
            adapters.policy.shareRecord s.policy key bytes = .ok true)
      ∧ (∀ snapshot key hash bytes t,
          (readBlob adapters snapshot key hash).exec s = (.ok (some bytes), t) →
            Blake3.hash bytes = hash ∧ ∃ encoded, snapshot.record key = some encoded
              ∧ References encoded hash
              ∧ adapters.policy.shareRecord s.policy key encoded = .ok true
              ∧ adapters.policy.shareBlob s.policy key hash = .ok true) := by
  intro s start
  have hnew : Coherent adapters law (new log blobs policy) := fun _ h => (by cases h)
  obtain ⟨hgrows, hpromised⟩ := run_grows hnew calls
  refine ⟨hgrows.coherent, hpromised, hgrows.bytes, ?_, ?_⟩
  · intro snapshot t hsnapshot key bytes hrecord
    have hfrozen := wp_eq_ok (wp_records true hgrows.coherent) hsnapshot
    exact (hfrozen.2 key bytes hrecord).2 rfl
  · intro snapshot key hash bytes t hread
    have hsent := wp_eq_ok (wp_readBlob hgrows.coherent) hread
    exact hsent.2 bytes rfl

end Content

end StoreReplica

/-! ## Adapters in memory -/

/-- A message refers to no content. -/
@[reducible] def messageContent : ContentSchema OpId := ⟨fun _ => ∅⟩

/-- A short content. -/
def greeting : Bytes := [104, 101, 108, 108, 111]

/-- BLAKE3 on the messages; short content is its own hash. -/
@[reducible] def contentDigests : Blake3 where
  hash bytes := if bytes.length < 32 then idOfBytes bytes else messageDigests.hash bytes

/-- Every message refers to the greeting. -/
@[reducible] def greetingContent : ContentSchema OpId :=
  ⟨fun _ => ExtTreeMap.empty.insert (contentDigests.hash greeting) [greeting.length]⟩

/-- Blobs in memory. -/
def memoryBlobs : BlobStorage (List Bytes) where
  readContent id := do
    let blobs ← get
    match id with
    | .hash256 hash =>
      match blobs.find? fun bytes => decide (Blake3.hash bytes = hash) with
      | some bytes => return .found bytes
      | none => return .missing
    | _ => return .unresolvable
  put bytes := do
    modify (bytes :: ·)
    return ⟨.hash256 (Blake3.hash bytes), bytes.length⟩

/-- A log and blobs in memory, and an immutable scope. -/
def memoryAdapters : Adapters MemoryLog (List Bytes) ExportScope :=
  ⟨MemoryLog.log, memoryBlobs, ExportScope.policy⟩

end EditChain.Sync

namespace EditChain.Sync

open Core Fallible Store

section Messages

local instance : Schema OpId := messageSchema
local instance : Blake3 := messageDigests
local instance : ContentSchema OpId := messageContent

/-- The keys of the two encodings of the message. -/
def messageKeys : RecordKey × RecordKey :=
  (⟨messageId, Blake3.hash messageV1⟩, ⟨messageId, Blake3.hash messageV3⟩)

/-- A replica without records whose third log operation fails after one record. -/
def messageReplica : StoreReplica MemoryLog (List Bytes) ExportScope :=
  .new ⟨[], [none, none, some 1]⟩ [] ⟨"chain", none, none⟩

/-- A batch, the same batch after the failure, and a snapshot. -/
def messageCalls : List (StoreReplica.Call ExportScope) :=
  [.ingestRecords [(messageKeys.1, messageV1), (messageKeys.2, messageV3)] .empty,
    .ingestRecords [(messageKeys.1, messageV1), (messageKeys.2, messageV3)] .empty,
    .snapshot]

/-- The failed batch promises nothing; its retry and the snapshot promise both records. -/
theorem StoreReplica.keeps_promises_after_lost_append :
    (StoreReplica.run memoryAdapters messageReplica messageCalls).2
        = [messageV1, messageV3, messageV3, messageV1]
      ∧ ∀ bytes ∈ (StoreReplica.run memoryAdapters messageReplica messageCalls).2,
        MemoryLog.lawful.Durable
          (StoreReplica.run memoryAdapters messageReplica messageCalls).1.log bytes :=
  ⟨by decide +kernel, (StoreReplica.keeps_promises memoryAdapters MemoryLog.lawful
    ⟨[], [none, none, some 1]⟩ [] ⟨"chain", none, none⟩ messageCalls).2.1⟩

end Messages

end EditChain.Sync
