import EditChain.Lib.Outcome
import EditChain.Sync.Storage

/-!
# Inserting records into snapshots

What a successful insertion and a validated batch say about the records of a snapshot.
-/

namespace EditChain.Sync

open Core Fallible
open Std (ExtTreeMap ExtTreeSet)

variable {Op : Type} [Schema Op] [Blake3]

namespace Snapshot

/-- Inserted bytes are found under their key, everything else where it was. -/
lemma record_insert {snapshot : Snapshot} {key : RecordKey} {encoded : Bytes}
    (h : RecordKey.fromEncoded encoded = .ok key) (k : RecordKey) :
    (snapshot.insert key encoded h).record k
      = if k = key then some encoded else snapshot.record k := by
  show (snapshot.records.insert key encoded)[k]? = _
  rw [ExtTreeMap.getElem?_insert]
  by_cases hk : k = key
  · subst hk
    rw [if_pos Std.ReflOrd.compare_self, if_pos rfl]
  · have hne : compare key k ≠ .eq := fun heq => hk (Std.LawfulEqOrd.eq_of_compare heq).symm
    rw [if_neg hne, if_neg hk]
    rfl

/-- The same records under the same keys. -/
lemma record_derived {snapshot : Snapshot} {key : RecordKey} {bytes : Bytes}
    (h : snapshot.record key = some bytes) : RecordKey.fromEncoded bytes = .ok key :=
  snapshot.derived key bytes h

/-- A successful insertion: the bytes derive the key, under which nothing else was retained. -/
lemma exec_insertEncoded_eq_ok {encoded : Bytes} {s t : Snapshot} {key : RecordKey}
    (h : (insertEncoded encoded).exec s = (.ok key, t)) :
    ∃ hkey : RecordKey.fromEncoded encoded = .ok key,
      (∀ previous, s.record key = some previous → previous = encoded)
        ∧ t = s.insert key encoded hkey := by
  unfold insertEncoded at h
  split at h
  · cases h
  · next k hk =>
    rw [exec_bind_of_ok (exec_get s), exec_guard] at h
    split at h
    · cases h
    · next hsame =>
      cases h
      refine ⟨hk, ?_, rfl⟩
      intro previous hprevious
      by_contra hne
      exact hsame (by simp [hprevious, hne])

/-- An insertion succeeds when the bytes derive a key under which nothing else is retained. -/
lemma exec_insertEncoded {encoded : Bytes} {s : Snapshot} {key : RecordKey}
    (hkey : RecordKey.fromEncoded encoded = .ok key)
    (hold : ∀ previous, s.record key = some previous → previous = encoded) :
    (insertEncoded encoded).exec s = (.ok key, s.insert key encoded hkey) := by
  unfold insertEncoded
  split
  · next error herror => rw [hkey] at herror; cases herror
  · next k hk =>
    rw [hkey] at hk
    cases hk
    rw [exec_bind_of_ok (exec_get s), exec_guard, if_neg]
    · rfl
    · cases hrecord : s.record key with
      | none => simp
      | some previous => simp [hold previous hrecord]

/-- A snapshot after a successful insertion. -/
lemma record_insertEncoded {encoded : Bytes} {s t : Snapshot} {key : RecordKey}
    (h : (insertEncoded encoded).exec s = (.ok key, t)) (k : RecordKey) (bytes : Bytes) :
    t.record k = some bytes
      ↔ s.record k = some bytes ∨ bytes = encoded ∧ RecordKey.fromEncoded encoded = .ok k := by
  obtain ⟨hkey, hold, rfl⟩ := exec_insertEncoded_eq_ok h
  rw [record_insert]
  by_cases hk : k = key
  · subst hk
    rw [if_pos rfl]
    constructor
    · intro heq
      exact .inr ⟨(Option.some.inj heq).symm, hkey⟩
    · rintro (hs | ⟨rfl, -⟩)
      · rw [hold bytes hs]
      · rfl
  · rw [if_neg hk]
    constructor
    · exact .inl
    · rintro (hs | ⟨-, hk'⟩)
      · exact hs
      · rw [hkey] at hk'
        cases hk'
        exact absurd rfl hk

end Snapshot

/-! ## Validated batches -/

/-- Every record of a validated batch derives its key. -/
lemma validateRecords_derived {records : List (RecordKey × Bytes)}
    (h : validateRecords records = .ok ()) {key : RecordKey} {bytes : Bytes}
    (hmem : (key, bytes) ∈ records) : RecordKey.fromEncoded bytes = .ok key := by
  unfold validateRecords at h
  obtain ⟨-, h⟩ := guard_eq_ok.mp h
  have hone := forM_eq_ok h _ hmem
  obtain ⟨k, hk, hcheck⟩ := bind_eq_ok.mp hone
  by_cases heq : k = key
  · rw [hk, heq]
  · rw [if_pos (by simpa using heq)] at hcheck
    cases hcheck

omit [Schema Op] [Blake3] in
/-- A sum that saturates is at most the sum. -/
lemma foldl_saturating_le (records : List (RecordKey × Bytes)) (n : ℕ) :
    records.foldl (fun size record => saturatingAdd size record.2.length) n
      ≤ n + (records.map fun record => record.2.length).sum := by
  induction records generalizing n with
  | nil => simp
  | cons record records ih =>
    have hstep := ih (saturatingAdd n record.2.length)
    have hadd : saturatingAdd n record.2.length ≤ n + record.2.length := by
      unfold saturatingAdd
      omega
    rw [List.foldl_cons, List.map_cons, List.sum_cons]
    omega

/-- A batch within its limits is valid when its records derive their keys. -/
lemma validateRecords_of_limits {records : List (RecordKey × Bytes)}
    (hlength : records.length ≤ inventoryPage)
    (hbytes : (records.map fun record => record.2.length).sum ≤ maxObjectBytes)
    (hderived : ∀ record ∈ records, RecordKey.fromEncoded record.2 = .ok record.1) :
    validateRecords records = .ok () := by
  have hcount : ¬ inventoryPage < records.length := by omega
  have hsize : ¬ maxObjectBytes < records.foldl
      (fun size record => saturatingAdd size record.2.length) 0 := by
    have hfold := foldl_saturating_le records 0
    omega
  unfold validateRecords
  simp only [hcount, hsize, or_self, if_false]
  show (records.forM fun x => _) = _
  clear hlength hbytes hcount hsize
  induction records with
  | nil => rfl
  | cons record records ih =>
    have hrecord := hderived record List.mem_cons_self
    have hrest := ih fun other hother => hderived other (List.mem_cons_of_mem _ hother)
    have hstep : (do
        let derived ← RecordKey.fromEncoded record.2
        if derived ≠ record.1 then throw (invalid "record identity or digest mismatch")
        : Except IoError Unit) = .ok () := by
      rw [hrecord]
      show (if record.1 ≠ record.1 then _ else _) = _
      rw [if_neg (by simp)]
      rfl
    show (_ >>= fun _ => records.forM _) = _
    dsimp only
    rw [hstep]
    exact hrest

end EditChain.Sync
