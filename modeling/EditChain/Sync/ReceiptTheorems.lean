import EditChain.Sync.OccurrenceTheorems
import EditChain.Sync.Replica

/-!
# The ledger of a receipt

What the loop over a receipt does to the ledger, whatever records a peer supplies in whatever order
and however often.
-/

namespace EditChain.Sync

open Core Store
open Std (ExtTreeMap ExtTreeSet)

namespace Replica.Receipt

/-- The record is known and may be shared. -/
def Shareable (known : Corpus) (scope : Scope) (key : RecordKey) : Prop :=
  ∃ record, known.records[key]? = some record ∧ scope.excludes key record.segment = false

/-- The ledger after some records of a receipt, compared with the one before. -/
structure Ledger (known : Corpus) (scope : Scope) (done : List (RecordKey × Bytes))
    (receipt : Receipt) : Prop where
  version : receipt.scope.version = scope.version
  space : receipt.scope.space = scope.space
  revision : receipt.scope.revision = scope.revision
  cutoff : receipt.scope.cutoff = scope.cutoff
  receivedBlobs : receipt.scope.receivedBlobs = scope.receivedBlobs
  excluded : ∀ key ∈ receipt.scope.excluded, key ∈ scope.excluded
  /-- What is no longer excluded was received. -/
  erased : ∀ key ∈ scope.excluded, key ∈ receipt.scope.excluded ∨ key ∈ receipt.scope.received
  received : ∀ key ∈ scope.received, key ∈ receipt.scope.received
  /-- Only what could not be shared enters the ledger. -/
  entered : ∀ key ∈ receipt.scope.received, key ∈ scope.received ∨ ¬ Shareable known scope key
  locals : ∀ key ∈ scope.locals, key ∈ receipt.scope.locals
  /-- Local provenance is kept for known records that no peer had supplied. -/
  localized : ∀ key ∈ receipt.scope.locals,
    key ∈ scope.locals ∨ (key ∈ known.records ∧ key ∉ scope.received)
  staged : ∀ key ∈ receipt.staged, key ∈ receipt.scope.received
  page : ∀ record ∈ receipt.page.records,
    ∃ r ∈ done, record.data = r.2 ∧ r.1 ∈ receipt.staged
  /-- A ledger that need not be saved is the old one. -/
  same : receipt.changed = false → receipt.page.records = [] →
    (∀ key, key ∈ receipt.scope.received ↔ key ∈ scope.received)
      ∧ (∀ key, key ∈ receipt.scope.excluded ↔ key ∈ scope.excluded)
  taken : ∀ r ∈ done, r.1 ∈ receipt.scope.received ∨ Shareable known scope r.1

variable {known : Corpus} {scope : Scope} {done : List (RecordKey × Bytes)} {receipt : Receipt}

/-- A key is withheld if its first occurrence lies before the cutoff. -/
def withheld (known : Corpus) (scope : Scope) (key : RecordKey) : Bool :=
  known.records[key]?.any fun record => scope.beforeCutoff record.segment

lemma Ledger.withheld_eq (h : Ledger known scope done receipt) (key : RecordKey) :
    withheld known receipt.scope key = withheld known scope key := by
  unfold withheld Scope.beforeCutoff
  rw [h.cutoff]

/-- A known record that is neither excluded nor withheld may be shared. -/
lemma shareable_of_known (key : RecordKey) (hknown : key ∈ known.records)
    (hexcluded : key ∉ scope.excluded) (hwithheld : withheld known scope key = false) :
    Shareable known scope key := by
  obtain ⟨record, hrecord⟩ := ExtTreeMap.mem_iff_isSome_getElem?.mp hknown
    |> Option.isSome_iff_exists.mp
  refine ⟨record, hrecord, ?_⟩
  unfold withheld at hwithheld
  rw [hrecord, Option.any_some] at hwithheld
  unfold Scope.excludes
  rw [hwithheld, Bool.or_false, ← Bool.not_eq_true, ExtTreeSet.contains_iff_mem]
  exact hexcluded

/-- Excluded and withheld records may not be shared. -/
lemma not_shareable (key : RecordKey)
    (h : key ∈ scope.excluded ∨ withheld known scope key = true) :
    ¬ Shareable known scope key := by
  rintro ⟨record, hrecord, hexcludes⟩
  unfold Scope.excludes at hexcludes
  rw [Bool.or_eq_false_iff] at hexcludes
  rcases h with h | h
  · rw [ExtTreeSet.contains_iff_mem.mpr h] at hexcludes
    cases hexcludes.1
  · unfold withheld at h
    rw [hrecord, Option.any_some, hexcludes.2] at h
    cases h

/-! ## One record -/

lemma mem_insert_iff {s : ExtTreeSet RecordKey} {a k : RecordKey} :
    k ∈ s.insert a ↔ k = a ∨ k ∈ s := by
  rw [ExtTreeSet.mem_insert, Std.LawfulEqOrd.compare_eq_iff_eq, eq_comm]

lemma mem_erase_iff {s : ExtTreeSet RecordKey} {a k : RecordKey} :
    k ∈ s.erase a ↔ k ≠ a ∧ k ∈ s := by
  rw [ExtTreeSet.mem_erase, ne_eq, Std.LawfulEqOrd.compare_eq_iff_eq, eq_comm]

/-- The key is in the ledger, or it need not be, unless it is still to be staged. -/
def Placed (known : Corpus) (scope : Scope) (key : RecordKey) (receipt : Receipt) : Prop :=
  key ∈ receipt.scope.received ∨ Shareable known scope key

/-- Taking a key from the excluded ones keeps the ledger, once it is received. -/
lemma Ledger.erase (h : Ledger known scope done receipt) {key : RecordKey} {changed : Bool}
    (hkey : key ∈ receipt.scope.excluded → key ∈ receipt.scope.received)
    (hchanged : changed = false → receipt.changed = false ∧ key ∉ receipt.scope.excluded) :
    Ledger known scope done { receipt with
      scope := { receipt.scope with excluded := receipt.scope.excluded.erase key }
      changed := changed } := by
  refine { h with excluded := ?_, erased := ?_, same := ?_ }
  · intro k hk
    exact h.excluded k (ExtTreeSet.mem_of_mem_erase hk)
  · intro k hk
    by_cases heq : k = key
    · subst heq
      rcases h.erased k hk with hin | hin
      · exact .inr (hkey hin)
      · exact .inr hin
    · rcases h.erased k hk with hin | hin
      · exact .inl (mem_erase_iff.mpr ⟨heq, hin⟩)
      · exact .inr hin
  · intro hfalse hpage
    obtain ⟨hold, hnot⟩ := hchanged hfalse
    obtain ⟨hreceived, hexcluded⟩ := h.same hold hpage
    refine ⟨hreceived, fun k => ?_⟩
    rw [← hexcluded k, mem_erase_iff]
    refine ⟨fun hk => hk.2, fun hk => ⟨?_, hk⟩⟩
    rintro rfl
    exact hnot hk

/-- Entering a key that could not be shared keeps the ledger. -/
lemma Ledger.enter (h : Ledger known scope done receipt) {key : RecordKey}
    {locals staged : ExtTreeSet RecordKey} {page : Page} {changed : Bool}
    {more : List (RecordKey × Bytes)} (hkey : ¬ Shareable known scope key)
    (hold : ∀ k ∈ receipt.scope.locals, k ∈ locals)
    (hlocals : ∀ k ∈ locals,
      k ∈ receipt.scope.locals ∨ (k ∈ known.records ∧ k ∉ scope.received))
    (hstaged : ∀ k ∈ staged, k ∈ receipt.staged ∨ k = key)
    (hpage : ∀ record ∈ page.records, ∃ r ∈ more, record.data = r.2 ∧ r.1 ∈ staged)
    (hchanged : changed = true ∨ page.records ≠ []) (hmore : ∀ r ∈ more, r ∈ done ∨ r.1 = key) :
    Ledger known scope more
      { scope := { receipt.scope with
          received := receipt.scope.received.insert key
          locals := locals }
        staged := staged
        page := page
        changed := changed } := by
  have hin : ∀ k ∈ receipt.scope.received, k ∈ receipt.scope.received.insert key :=
    fun k hk => mem_insert_iff.mpr (.inr hk)
  have hself : key ∈ receipt.scope.received.insert key := mem_insert_iff.mpr (.inl rfl)
  refine { h with
    erased := fun k hk => (h.erased k hk).imp_right (hin k)
    received := fun k hk => hin k (h.received k hk)
    locals := fun k hk => hold k (h.locals k hk)
    entered := ?_, localized := ?_, staged := ?_, page := hpage, same := ?_, taken := ?_ }
  · intro k hk
    rcases mem_insert_iff.mp hk with rfl | hk
    · exact .inr hkey
    · exact h.entered k hk
  · intro k hk
    rcases hlocals k hk with hbefore | hfresh
    · exact h.localized k hbefore
    · exact .inr hfresh
  · intro k hk
    rcases hstaged k hk with hbefore | rfl
    · exact hin k (h.staged k hbefore)
    · exact hself
  · intro hfalse hnil
    rcases hchanged with htrue | hne
    · rw [htrue] at hfalse
      cases hfalse
    · exact absurd hnil hne
  · intro r hr
    rcases hmore r hr with hbefore | heq
    · exact (h.taken r hbefore).imp_left (hin r.1)
    · rw [heq]
      exact .inl hself

/-- Sharing a key keeps the ledger, and places the key if it is known. -/
lemma Ledger.share (hknown : ∀ key ∈ scope.excluded, key ∈ known.records)
    (h : Ledger known scope done receipt) (key : RecordKey) :
    Ledger known scope done (receipt.share known key)
      ∧ (key ∈ known.records → Placed known scope key (receipt.share known key)) := by
  have hmem : receipt.scope.excluded.contains key = true ↔ key ∈ receipt.scope.excluded :=
    ExtTreeSet.contains_iff_mem
  have hfold : (known.records[key]?.any fun record => receipt.scope.beforeCutoff record.segment)
      = withheld known scope key := h.withheld_eq key
  unfold Receipt.share
  simp only [hfold]
  by_cases hclosed : receipt.scope.excluded.contains key || withheld known scope key
  · have hnot : ¬ Shareable known scope key := by
      apply not_shareable
      rcases Bool.or_eq_true_iff.mp hclosed with hin | hin
      · exact .inl (h.excluded key (hmem.mp hin))
      · exact .inr hin
    have hin : key ∈ known.records := by
      rcases Bool.or_eq_true_iff.mp hclosed with hin | hin
      · exact hknown key (h.excluded key (hmem.mp hin))
      · unfold withheld at hin
        rw [ExtTreeMap.mem_iff_isSome_getElem?]
        cases hget : known.records[key]? with
        | none =>
          rw [hget] at hin
          cases hin
        | some record => rfl
    rw [if_pos hclosed]
    by_cases hreceived : receipt.scope.received.contains key
    · -- the peer supplied it before
      rw [if_pos hreceived]
      have hkey := ExtTreeSet.contains_iff_mem.mp hreceived
      refine ⟨h.erase (fun _ => hkey) ?_, fun _ => .inl hkey⟩
      intro hfalse
      rw [Bool.or_eq_false_iff] at hfalse
      refine ⟨hfalse.1, fun hex => ?_⟩
      rw [hmem.mpr hex] at hfalse
      cases hfalse.2
    · rw [if_neg hreceived]
      have hfresh : key ∉ scope.received := fun hold =>
        hreceived (ExtTreeSet.contains_iff_mem.mpr (h.received key hold))
      have hentered : Ledger known scope done { receipt with
          scope := { receipt.scope with
            received := receipt.scope.received.insert key
            locals := receipt.scope.locals.insert key }
          changed := true } := by
        apply h.enter hnot
        · intro k hk
          exact mem_insert_iff.mpr (.inr hk)
        · intro k hk
          rcases mem_insert_iff.mp hk with rfl | hk
          · exact .inr ⟨hin, hfresh⟩
          · exact .inl hk
        · intro k hk
          exact .inl hk
        · exact h.page
        · exact .inl rfl
        · intro r hr
          exact .inl hr
      refine ⟨?_, fun _ => .inl ExtTreeSet.mem_insert_self⟩
      apply hentered.erase
      · intro _
        exact ExtTreeSet.mem_insert_self
      · intro hfalse
        cases hfalse
  · rw [if_neg hclosed]
    rw [Bool.not_eq_true, Bool.or_eq_false_iff] at hclosed
    have hnot : key ∉ receipt.scope.excluded := fun hex => by
      rw [hmem.mpr hex] at hclosed
      cases hclosed.1
    refine ⟨h.erase (fun hex => absurd hex hnot) fun hfalse => ⟨hfalse, hnot⟩, ?_⟩
    intro hin
    by_cases hex : key ∈ scope.excluded
    · rcases h.erased key hex with hold | hreceived
      · exact absurd hold hnot
      · exact .inl hreceived
    · exact .inr (shareable_of_known key hin hex hclosed.2)

/-- Staging a key keeps the ledger and places the key. -/
lemma Ledger.stage (h : Ledger known scope done receipt) {key : RecordKey} (bytes : Bytes)
    (hplaced : key ∈ known.records → Placed known scope key receipt) :
    Ledger known scope (done ++ [(key, bytes)]) (receipt.stage known key bytes) := by
  unfold Receipt.stage
  by_cases hskip : known.records.contains key || receipt.staged.contains key
  · rw [if_pos hskip]
    have hkey : Placed known scope key receipt := by
      rcases Bool.or_eq_true_iff.mp hskip with hin | hin
      · exact hplaced (ExtTreeMap.contains_iff_mem.mp hin)
      · exact .inl (h.staged key (ExtTreeSet.contains_iff_mem.mp hin))
    refine { h with page := ?_, taken := ?_ }
    · intro record hrecord
      obtain ⟨r, hr, hdata⟩ := h.page record hrecord
      exact ⟨r, List.mem_append_left _ hr, hdata⟩
    intro r hr
    rcases List.mem_append.mp hr with hr | hr
    · exact h.taken r hr
    · rw [List.mem_singleton.mp hr]
      exact hkey
  · rw [if_neg hskip]
    rw [Bool.not_eq_true, Bool.or_eq_false_iff] at hskip
    have hunknown : key ∉ known.records := fun hin => by
      rw [ExtTreeMap.contains_iff_mem.mpr hin] at hskip
      cases hskip.1
    have hnot : ¬ Shareable known scope key := by
      rintro ⟨record, hrecord, -⟩
      apply hunknown
      rw [ExtTreeMap.mem_iff_isSome_getElem?, hrecord]
      rfl
    have hself : key ∈ receipt.staged.insert key := mem_insert_iff.mpr (.inl rfl)
    apply h.enter hnot
    · intro k hk
      exact hk
    · intro k hk
      exact .inl hk
    · intro k hk
      exact (mem_insert_iff.mp hk).symm
    · intro record hrecord
      rcases List.mem_append.mp hrecord with hold | hnew
      · obtain ⟨r, hr, hdata, hin⟩ := h.page record hold
        exact ⟨r, List.mem_append_left _ hr, hdata, mem_insert_iff.mpr (.inr hin)⟩
      · rw [List.mem_singleton.mp hnew]
        exact ⟨(key, bytes), by simp, rfl, hself⟩
    · exact .inr (by simp [Page.addRecord])
    · intro r hr
      rcases List.mem_append.mp hr with hr | hr
      · exact .inl hr
      · rw [List.mem_singleton.mp hr]
        exact .inr rfl

/-! ## Whole receipts -/

/-- What a whole receipt does to the ledger. -/
lemma ledger_takeAll (hknown : ∀ key ∈ scope.excluded, key ∈ known.records)
    (records : List (RecordKey × Bytes)) :
    Ledger known scope records (takeAll known scope records) := by
  -- the induction is on the records that are left
  have hrest : ∀ (rest done : List (RecordKey × Bytes)) (receipt : Receipt),
      Ledger known scope done receipt →
        Ledger known scope (done ++ rest) (rest.foldl (Receipt.take known) receipt) := by
    intro rest
    induction rest with
    | nil =>
      intro done receipt h
      rwa [List.append_nil]
    | cons record rest ih =>
      intro done receipt h
      obtain ⟨hshared, hplaced⟩ := h.share hknown record.1
      have htaken := hshared.stage record.2 hplaced
      rw [List.append_cons, List.foldl_cons]
      exact ih _ _ htaken
  refine hrest records [] { scope := scope } ?_
  exact {
    version := rfl, space := rfl, revision := rfl, cutoff := rfl, receivedBlobs := rfl
    excluded := fun _ hk => hk
    erased := fun _ hk => .inl hk
    received := fun _ hk => hk
    entered := fun _ hk => .inl hk
    locals := fun _ hk => hk
    localized := fun _ hk => .inl hk
    staged := fun k hk => absurd hk ExtTreeSet.not_mem_empty
    page := fun record hrecord => (by cases hrecord)
    same := fun _ _ => ⟨fun _ => Iff.rfl, fun _ => Iff.rfl⟩
    taken := fun r hr => (by cases hr) }

end Replica.Receipt
end EditChain.Sync
