import EditChain.Index.FrontierTheorems
import EditChain.Store.TailTheorems

/-!
# Failed polls and drains

A poll goes through turns, each of which reads a slice of the frontier file and may move on to the
next segment; a drain folds the deltas of its polls. A call may fail at any point. It then drops
what it was about to report, and the records that the last turn had taken in stay in the corpus
although the frontier stays before them. Nothing is lost exactly where there was nothing to drop and
no record had been taken in.
-/

namespace EditChain.Store

open Core Fallible UnitReader
open Std (ExtTreeMap ExtTreeSet)

variable {Op C : Type}

/-! ## Corpora that deltas account for -/

/-- A delta tells how the accepted operations of a corpus changed, and which identities came into
conflict; it adds only what was unknown. -/
structure ChainDelta.Told (accepted : C → OpId → Option (Op × OpRecordLocation))
    (known quarantined : C → OpId → Prop) (delta : ChainDelta Op) (before after : C) : Prop where
  added : ∀ (id : OpId) r, delta.added[id]? = some r →
    ¬ known before id ∧ known after id ∧ accepted after id = some r
  removed : ∀ id ∈ delta.removed, accepted after id = none
  kept : ∀ id : OpId, id ∉ delta.removed → delta.added[id]? = none →
    accepted after id = accepted before id
  seen : ∀ id, known before id → known after id
  quarantined : ∀ id, quarantined after id ↔ id ∈ delta.removed ∨ quarantined before id

namespace ChainDelta

variable {accepted : C → OpId → Option (Op × OpRecordLocation)} {known quarantined : C → OpId → Prop}
  {x y : ChainDelta Op} {before after : C}

/-- What was shown, together with a delta, is what is accepted now. -/
lemma Told.shown (h : y.Told accepted known quarantined before after)
    (hshown : ∀ id : OpId, x.added[id]? = accepted before id) (id : OpId) :
    (Tail.fold x y).added[id]? = accepted after id := by
  rw [Tail.getElem?_added_fold]
  by_cases hremoved : id ∈ y.removed
  · rw [if_pos hremoved, h.removed id hremoved]
  · rw [if_neg hremoved]
    cases hadded : y.added[id]? with
    | some r => rw [Option.some_or, (h.added id r hadded).2.2]
    | none => rw [Option.none_or, hshown, h.kept id hremoved hadded]

/-- A delta that neither adds nor removes what was shown can be dropped. -/
lemma Told.dropped (h : y.Told accepted known quarantined before after)
    (hshown : ∀ id : OpId, x.added[id]? = accepted before id) (hadded : y.added = ∅)
    (hremoved : ∀ id ∈ y.removed, x.added[id]? = none) (id : OpId) :
    x.added[id]? = accepted after id := by
  rw [← h.shown hshown id, Tail.getElem?_added_fold, hadded]
  by_cases hgone : id ∈ y.removed
  · rw [if_pos hgone, hremoved id hgone]
  · rw [if_neg hgone]
    simp

end ChainDelta

/-- A corpus whose changes are told by the deltas of successful turns, and which a refused admission
does not touch. -/
class AccountedCorpus (Op : outParam Type) (C : Type) [Schema Op] [Checksum] [TailCorpus Op C] where
  accepted : C → OpId → Option (Op × OpRecordLocation)
  known : C → OpId → Prop
  /-- There are conflicting records of an identity. -/
  quarantined : C → OpId → Prop
  Tells : Directory → ChainDelta Op → C → C → Prop
  nothing : ∀ id, accepted TailCorpus.empty id = none ∧ ¬ quarantined TailCorpus.empty id
  refuted : ∀ {chain id}, quarantined chain id → accepted chain id = none
  start : ∀ d, Tells d {} TailCorpus.empty TailCorpus.empty
  again : ∀ {d delta before after}, Tells d delta before after → Tells d {} after after
  fold : ∀ {d x y a b c}, Tells d x a b → Tells d y b c → Tells d (Tail.fold x y) a c
  grows : ∀ {d d' delta before after}, d.Grows d' → Tells d delta before after →
    Tells d' delta before after
  read : ∀ {d metadata delta delta' before} {tail tail' : Tail C}, Tells d delta before tail.chain →
    (Tail.admitFrontier d metadata (tail.readFrontier d) delta).exec tail = (.ok delta', tail') →
    Tells d delta' before tail'.chain
  told : ∀ {d delta before after}, Tells d delta before after →
    delta.Told accepted known quarantined before after
  refused : ∀ {d op encoded location} {chain chain' : C} {error},
    (TailCorpus.admitRecord d op encoded location).exec chain = (.error error, chain') →
    chain' = chain

/-! ## Runs -/

namespace Calls

section

/-- A tail, the call under way and what was reported before. -/
structure Follower (Op C : Type) where
  tail : Tail C
  /-- The deltas of the earlier polls of a drain. -/
  result : ChainDelta Op := {}
  /-- The delta of the poll under way. -/
  delta : ChainDelta Op := {}
  /-- The deltas that calls have returned, oldest first. -/
  reported : List (ChainDelta Op) := []

namespace Follower

/-- What the call under way would return now. -/
def pending (f : Follower Op C) : ChainDelta Op := Tail.fold f.result f.delta

/-- All deltas, as far as they have been gathered. -/
def deltas (f : Follower Op C) : List (ChainDelta Op) := f.reported ++ [f.pending]

end Follower

/-- What deltas tell together. -/
def shown (deltas : List (ChainDelta Op)) : ChainDelta Op := deltas.foldl Tail.fold {}

lemma shown_append (deltas : List (ChainDelta Op)) (delta : ChainDelta Op) :
    shown (deltas ++ [delta]) = Tail.fold (shown deltas) delta := by
  unfold shown
  rw [List.foldl_append]
  rfl

/-- No identity is added by two of the deltas. -/
def AddedOnce (deltas : List (ChainDelta Op)) : Prop :=
  deltas.Pairwise fun x y => ∀ id ∈ x.added, id ∉ y.added

@[simp] lemma fold_nothing (x : ChainDelta Op) : Tail.fold x {} = x := by
  have hadded : (∅ : ExtTreeMap OpId (Op × OpRecordLocation)).toList = [] := rfl
  have hremoved : (∅ : ExtTreeSet OpId).toList = [] := rfl
  unfold Tail.fold
  rw [hadded, hremoved]
  rfl

variable [Schema Op] [Checksum] [TailCorpus Op C]

/-- A successful turn of the loop of `poll`. -/
inductive Turn (d : Directory) (tail : Tail C) (delta : ChainDelta Op) :
    Tail C → ChainDelta Op → Prop
  | read {metadata : FileStamp} {seen : Tail C} {delta' : ChainDelta Op} :
      tail.openFrontier d = .ok (some metadata) →
      (Tail.admitFrontier d metadata (tail.readFrontier d) delta).exec tail = (.ok delta', seen) →
      Turn d tail delta seen delta'
  | move {metadata : FileStamp} {seen : Tail C} {delta' : ChainDelta Op} {next : ℕ} :
      tail.openFrontier d = .ok (some metadata) →
      (Tail.admitFrontier d metadata (tail.readFrontier d) delta).exec tail = (.ok delta', seen) →
      ¬ tail.offset < seen.offset → seen.nextSegment = .ok next → d.segments[next]? ≠ none →
      Turn d tail delta (seen.advance next) delta'

/-- A turn that fails, after it has taken in a number of records of its slice. -/
inductive FailedTurn (d : Directory) (tail : Tail C) : ℕ → Tail C → Prop
  /-- Any operation other than an admission fails. -/
  | outside : FailedTurn d tail 0 tail
  /-- The next record is not admitted; what an admission rereads cannot be read. -/
  | record {metadata : FileStamp} {records : List RecordRef} {n : ℕ} {record : RecordRef}
      {delta delta' : ChainDelta Op} {tail' : Tail C} :
      tail.openFrontier d = .ok (some metadata) →
      Tail.completeRecords (PageScanner.resume (tail.readFrontier d) tail.page).items.1
        = .ok records →
      records[n]? = some record →
      (Tail.admitRecords d (records.take n) delta).exec tail = (.ok delta', tail') →
      FailedTurn d tail n tail'

/-- A failure that is harmless: no record of the slice has been taken in, and what the call has
gathered adds nothing and removes nothing that was not reported as removed before. -/
structure Follower.Spared (f : Follower Op C) (n : ℕ) : Prop where
  untouched : n = 0
  added : f.pending.added = ∅
  removed : ∀ id ∈ f.pending.removed, id ∈ (shown f.reported).removed

/-- Calls on a growing directory, turn by turn. If some may fail, they do so harmlessly, at a turn
that may find any directory at all. -/
inductive Run (mayFail : Prop) (root : String) : Directory → Follower Op C → Prop
  | start (d : Directory) : Run mayFail root d { tail := Tail.empty root }
  | grow {d d' : Directory} {f : Follower Op C} : Run mayFail root d f → d.Grows d' →
      Run mayFail root d' f
  | turn {d : Directory} {f : Follower Op C} {tail : Tail C} {delta : ChainDelta Op} :
      Run mayFail root d f → Turn d f.tail f.delta tail delta →
      Run mayFail root d { f with tail := tail, delta := delta }
  /-- A drain goes on with another poll. -/
  | next {d : Directory} {f : Follower Op C} : Run mayFail root d f →
      Run mayFail root d { f with result := f.pending, delta := {} }
  | drain_returns {d : Directory} {f : Follower Op C} : Run mayFail root d f →
      Run mayFail root d { tail := f.tail, reported := f.deltas }
  | poll_returns {d : Directory} {f : Follower Op C} : Run mayFail root d f → f.result = {} →
      Run mayFail root d { tail := f.tail, reported := f.reported ++ [f.delta] }
  | call_fails {d bad : Directory} {f : Follower Op C} {n : ℕ} {tail : Tail C} : mayFail →
      Run mayFail root d f → FailedTurn bad f.tail n tail → f.Spared n →
      Run mayFail root d { tail := tail, reported := f.reported }

/-- A failure before the first record leaves the tail as it was. -/
lemma FailedTurn.tail_eq {d : Directory} {tail tail' : Tail C} (h : FailedTurn d tail 0 tail') :
    tail' = tail := by
  cases h with
  | outside => rfl
  | record _ _ _ hexec =>
    rw [List.take_zero] at hexec
    cases hexec
    rfl

/-- What a run with harmless failures reaches is reached without them. -/
lemma Run.without_failures {mayFail : Prop} {root : String} {d : Directory} {f : Follower Op C}
    (h : Run mayFail root d f) : ∃ deltas, Run False root d { f with reported := deltas } := by
  induction h with
  | start d => exact ⟨[], .start d⟩
  | grow _ hgrows ih =>
    obtain ⟨deltas, hrun⟩ := ih
    exact ⟨deltas, hrun.grow hgrows⟩
  | turn _ hturn ih =>
    obtain ⟨deltas, hrun⟩ := ih
    exact ⟨deltas, hrun.turn hturn⟩
  | next _ ih =>
    obtain ⟨deltas, hrun⟩ := ih
    exact ⟨deltas, hrun.next⟩
  | drain_returns _ ih =>
    obtain ⟨deltas, hrun⟩ := ih
    exact ⟨_, hrun.drain_returns⟩
  | poll_returns _ hresult ih =>
    obtain ⟨deltas, hrun⟩ := ih
    exact ⟨_, hrun.poll_returns hresult⟩
  | call_fails _ _ hfailed hspared ih =>
    -- the call that never fails returns what the other one drops
    obtain ⟨deltas, hrun⟩ := ih
    obtain rfl := hspared.untouched
    obtain rfl := hfailed.tail_eq
    exact ⟨_, hrun.drain_returns⟩

/-! ## Accounting -/

open AccountedCorpus

variable [AccountedCorpus Op C] {d : Directory} {f : Follower Op C} {root : String} {mayFail : Prop}

/-- The reported deltas account for the corpus that the call found, and those of the call for what
has happened since. -/
structure Accounted (d : Directory) (f : Follower Op C) (base middle : C) : Prop where
  shown : ∀ id : OpId, (shown f.reported).added[id]? = accepted base id
  gone : ∀ id, id ∈ (Calls.shown f.reported).removed ↔ quarantined base id
  result : Tells d f.result base middle
  delta : Tells d f.delta middle f.tail.chain
  known : ∀ x ∈ f.reported, ∀ id ∈ x.added, known base id
  once : AddedOnce f.reported

lemma Accounted.pending {base middle : C} (h : Accounted d f base middle) :
    Tells d f.pending base f.tail.chain := fold h.result h.delta

/-- One more report. -/
lemma AddedOnce.append {deltas : List (ChainDelta Op)} {delta : ChainDelta Op} {before after : C}
    (h : AddedOnce deltas) (hknown : ∀ x ∈ deltas, ∀ id ∈ x.added, known before id)
    (htells : Tells d delta before after) :
    AddedOnce (deltas ++ [delta])
      ∧ ∀ x ∈ deltas ++ [delta], ∀ id ∈ x.added, known after id := by
  have htold := told htells
  have hnew : ∀ id ∈ delta.added, ¬ known before id ∧ known after id := by
    intro id hid
    obtain ⟨r, hr⟩ := Option.isSome_iff_exists.mp (ExtTreeMap.isSome_getElem?_iff_mem.mpr hid)
    exact ⟨(htold.added id r hr).1, (htold.added id r hr).2.1⟩
  constructor
  · unfold AddedOnce at h ⊢
    rw [List.pairwise_append]
    refine ⟨h, List.pairwise_singleton _ _, fun x hx y hy id hid hagain => ?_⟩
    obtain rfl := List.mem_singleton.mp hy
    exact (hnew id hagain).1 (hknown x hx id hid)
  · intro x hx id hid
    rcases List.mem_append.mp hx with hx | hx
    · exact htold.seen id (hknown x hx id hid)
    · obtain rfl := List.mem_singleton.mp hx
      exact (hnew id hid).2

/-- A call that returns reports what has happened since it began. -/
lemma Accounted.reports {base middle : C} (h : Accounted d f base middle) {delta : ChainDelta Op}
    {before : C}
    (hbase : ∀ id : OpId, (Calls.shown f.reported).added[id]? = accepted before id)
    (hgone : ∀ id, id ∈ (Calls.shown f.reported).removed ↔ quarantined before id)
    (hknown : ∀ x ∈ f.reported, ∀ id ∈ x.added, AccountedCorpus.known before id)
    (htells : Tells d delta before f.tail.chain) :
    Accounted d { tail := f.tail, reported := f.reported ++ [delta] }
      f.tail.chain f.tail.chain := by
  obtain ⟨honce, hafter⟩ := h.once.append hknown htells
  refine ⟨fun id => ?_, fun id => ?_, again htells, again htells, hafter, honce⟩
  · rw [shown_append]
    exact (told htells).shown hbase id
  · rw [shown_append, Tail.mem_removed_fold, hgone]
    exact ((told htells).quarantined id).symm

/-- A turn tells what it does to the corpus. -/
lemma Turn.tells {tail tail' : Tail C} {delta delta' : ChainDelta Op} {before : C}
    (h : Turn d tail delta tail' delta') (htells : Tells d delta before tail.chain) :
    Tells d delta' before tail'.chain := by
  cases h with
  | read _ hexec => exact AccountedCorpus.read htells hexec
  | @move metadata seen delta' next _ hexec =>
    have hread : Tells d delta' before seen.chain := AccountedCorpus.read htells hexec
    exact hread

lemma Run.accounted (h : Run mayFail root d f) : ∃ base middle : C, Accounted d f base middle := by
  induction h with
  | start d =>
    refine ⟨_, _, fun id => ?_, fun id => ?_, AccountedCorpus.start d, AccountedCorpus.start d,
      nofun, List.Pairwise.nil⟩
    · rw [(nothing id).1]
      rfl
    · exact iff_of_false ExtTreeSet.not_mem_empty (nothing id).2
  | grow _ hgrows ih =>
    obtain ⟨base, middle, ih⟩ := ih
    exact ⟨base, middle, ih.shown, ih.gone, grows hgrows ih.result, grows hgrows ih.delta, ih.known,
      ih.once⟩
  | turn _ hturn ih =>
    obtain ⟨base, middle, ih⟩ := ih
    exact ⟨base, middle, ih.shown, ih.gone, ih.result, hturn.tells ih.delta, ih.known, ih.once⟩
  | next _ ih =>
    obtain ⟨base, middle, ih⟩ := ih
    exact ⟨base, _, ih.shown, ih.gone, ih.pending, again ih.delta, ih.known, ih.once⟩
  | drain_returns _ ih =>
    obtain ⟨base, middle, ih⟩ := ih
    exact ⟨_, _, ih.reports ih.shown ih.gone ih.known ih.pending⟩
  | @poll_returns d f _ hresult ih =>
    obtain ⟨base, middle, ih⟩ := ih
    -- with no earlier poll the call began where its only poll did
    have hnone : ({} : ChainDelta Op).Told accepted known quarantined base middle := by
      rw [← hresult]
      exact told ih.result
    refine ⟨_, _, ih.reports (fun id => ?_) (fun id => ?_) (fun x hx id hid => ?_) ih.delta⟩
    · rw [ih.shown]
      exact (hnone.kept id (by simp) (by simp)).symm
    · rw [ih.gone, hnone.quarantined, or_iff_right (by simp)]
    · exact hnone.seen id (ih.known x hx id hid)
  | call_fails _ _ hfailed hspared ih =>
    obtain ⟨base, middle, ih⟩ := ih
    obtain rfl := hspared.untouched
    obtain rfl := hfailed.tail_eq
    have htold := told ih.pending
    refine ⟨_, _, fun id => ?_, fun id => ?_, again ih.delta, again ih.delta,
      fun x hx id hid => ?_, ih.once⟩
    · refine htold.dropped ih.shown hspared.added (fun id hid => ?_) id
      rw [ih.shown]
      exact refuted ((ih.gone id).mp (hspared.removed id hid))
    · rw [htold.quarantined, ← ih.gone]
      exact ⟨.inr, fun hgone => hgone.elim (hspared.removed id) fun hold => hold⟩
    · exact htold.seen id (ih.known x hx id hid)

/-! ## Polls and drains as turns -/

/-- A record that is not admitted stops the records after it. -/
lemma admitRecords_stops {records : List RecordRef} {delta : ChainDelta Op} {tail tail' : Tail C}
    {error : IoError}
    (hexec : (Tail.admitRecords d records delta).exec tail = (.error error, tail')) :
    ∃ n record delta', records[n]? = some record
      ∧ (Tail.admitRecords d (records.take n) delta).exec tail = (.ok delta', tail') := by
  induction records generalizing delta tail with
  | nil => cases hexec
  | cons record records ih =>
    rw [Tail.admitRecords] at hexec
    rcases exec_bind_eq_error.mp hexec with hone | ⟨delta₁, tail₁, hone, hexec⟩
    · refine ⟨0, record, delta, rfl, ?_⟩
      rw [List.take_zero]
      have hsame : tail' = tail := by
        unfold Tail.admitOne at hone
        split at hone
        · cases hone
        · next op hop =>
          rw [exec_bind_of_ok (exec_get tail)] at hone
          dsimp only at hone
          rcases exec_bind_eq_error.mp hone with hrefused | ⟨admission, after, -, hone⟩
          · unfold Tail.onChain at hrefused
            rw [exec_zoom] at hrefused
            obtain ⟨hadmission, htail⟩ := Prod.mk.inj hrefused
            rw [← htail]
            exact congrArg (fun chain => { tail with chain := chain })
              (AccountedCorpus.refused (Prod.ext hadmission rfl))
          · cases hone
      rw [hsame]
      rfl
    · obtain ⟨n, failed, delta', hrecord, htaken⟩ := ih hexec
      refine ⟨n + 1, failed, delta', hrecord, ?_⟩
      rw [List.take_succ_cons, Tail.admitRecords, exec_bind_of_ok hone]
      exact htaken

/-- A slice that is not scanned. -/
lemma failedTurn_of_admitFrontier {metadata : FileStamp} {delta : ChainDelta Op}
    {tail tail' : Tail C} {error : IoError}
    (hopen : tail.openFrontier d = .ok (some metadata))
    (hexec : (Tail.admitFrontier d metadata (tail.readFrontier d) delta).exec tail
      = (.error error, tail')) : ∃ n, FailedTurn d tail n tail' := by
  unfold Tail.admitFrontier at hexec
  dsimp only at hexec
  rw [exec_bind_of_ok (exec_get tail)] at hexec
  rcases exec_bind_eq_error.mp hexec with hscan | ⟨found, tail₁, -, hexec⟩
  · unfold Tail.scan at hscan
    rw [exec_bind_of_ok (exec_get tail)] at hscan
    dsimp only at hscan
    rcases exec_bind_eq_error.mp hscan with hframing | ⟨records, same, hrecords, hscan⟩
    · obtain rfl : tail = tail' := (Prod.mk.inj hframing).2
      exact ⟨0, .outside⟩
    · obtain ⟨hcomplete, rfl⟩ := Prod.mk.inj hrecords
      rcases exec_bind_eq_error.mp hscan with hstops | ⟨delta₁, tail₁, -, hscan⟩
      · obtain ⟨n, record, delta', hrecord, htaken⟩ := admitRecords_stops hstops
        exact ⟨n, .record hopen hcomplete hrecord htaken⟩
      · cases hscan
  · cases hexec

/-- What the loop of a poll does is a run, up to the turn that fails. -/
lemma Run.pollLoop (fuel : ℕ) {r : Except IoError (ChainDelta Op)} {tail' : Tail C}
    (h : Run mayFail root d f) (hexec : (Tail.pollLoop d fuel f.delta).exec f.tail = (r, tail')) :
    (∃ delta, r = .ok delta ∧ Run mayFail root d { f with tail := tail', delta := delta })
      ∨ (∃ error, r = .error error) ∧ ∃ tail delta n,
        Run mayFail root d { f with tail := tail, delta := delta } ∧ FailedTurn d tail n tail' := by
  induction fuel generalizing f with
  | zero =>
    cases hexec
    exact .inl ⟨_, rfl, h⟩
  | succ fuel ih =>
    unfold Tail.pollLoop at hexec
    rw [exec_bind_of_ok (exec_get f.tail), exec_bind, exec_lift] at hexec
    cases hopen : f.tail.openFrontier d with
    | error error =>
      rw [hopen] at hexec
      cases hexec
      exact .inr ⟨⟨_, rfl⟩, _, _, 0, h, .outside⟩
    | ok found =>
      rw [hopen] at hexec
      cases found with
      | none =>
        cases hexec
        exact .inl ⟨_, rfl, h⟩
      | some metadata =>
        dsimp only at hexec
        rw [exec_bind] at hexec
        cases hread : (Tail.admitFrontier d metadata (f.tail.readFrontier d) f.delta).exec
            f.tail with
        | mk taken seen =>
          rw [hread] at hexec
          cases taken with
          | error error =>
            cases hexec
            obtain ⟨n, hfailed⟩ := failedTurn_of_admitFrontier hopen hread
            exact .inr ⟨⟨_, rfl⟩, _, _, n, h, hfailed⟩
          | ok delta =>
            have hturn := h.turn (.read hopen hread)
            dsimp only at hexec
            rw [exec_bind_of_ok (exec_get seen)] at hexec
            split at hexec
            · cases hexec
              exact .inl ⟨_, rfl, hturn⟩
            · next hstays =>
              rw [exec_bind, exec_lift] at hexec
              cases hnext : seen.nextSegment with
              | error error =>
                rw [hnext] at hexec
                cases hexec
                exact .inr ⟨⟨_, rfl⟩, _, _, 0, hturn, .outside⟩
              | ok next =>
                rw [hnext] at hexec
                dsimp only at hexec
                split at hexec
                · cases hexec
                  exact .inl ⟨_, rfl, hturn⟩
                · next hmore =>
                  rw [exec_bind_of_ok (exec_set _ seen)] at hexec
                  have hrest := ih (h.turn (.move hopen hread hstays hnext hmore)) hexec
                  exact hrest

/-- What the loop of a drain does is a run, up to the turn that fails. -/
lemma Run.drainLoop (fuel : ℕ) {r : Except IoError (ChainDelta Op)} {tail' : Tail C}
    (h : Run mayFail root d f) (hdelta : f.delta = {})
    (hexec : (Tail.drainLoop d fuel f.result).exec f.tail = (r, tail')) :
    (∃ g : Follower Op C, r = .ok g.result ∧ g.delta = {} ∧ g.tail = tail'
        ∧ g.reported = f.reported ∧ Run mayFail root d g)
      ∨ (∃ error, r = .error error) ∧ ∃ (g : Follower Op C) (n : ℕ),
        g.reported = f.reported ∧ Run mayFail root d g ∧ FailedTurn d g.tail n tail' := by
  induction fuel generalizing f with
  | zero =>
    cases hexec
    exact .inl ⟨f, rfl, hdelta, rfl, rfl, h⟩
  | succ fuel ih =>
    unfold Tail.drainLoop at hexec
    rw [exec_bind_of_ok (exec_get f.tail), exec_bind] at hexec
    cases hpoll : (Tail.poll d).exec f.tail with
    | mk polled tail₁ =>
      rw [hpoll] at hexec
      unfold Tail.poll at hpoll
      rw [← hdelta] at hpoll
      rcases h.pollLoop _ hpoll with ⟨delta, rfl, hrun⟩ |
        ⟨⟨error, rfl⟩, tail, delta, n, hrun, hfailed⟩
      · have hnext := hrun.next
        dsimp only at hexec
        rw [exec_bind_of_ok (exec_get tail₁)] at hexec
        split at hexec
        · cases hexec
          exact .inl ⟨⟨_, _, {}, f.reported⟩, rfl, rfl, rfl, rfl, hnext⟩
        · have hrest := ih hnext rfl hexec
          exact hrest
      · cases hexec
        exact .inr ⟨⟨_, rfl⟩, ⟨tail, f.result, delta, f.reported⟩, n, rfl, hrun, hfailed⟩

/-- A drain on a directory is a call that returns what it has gathered, or that fails at a turn. -/
lemma Run.drain {tail tail' : Tail C} {reported : List (ChainDelta Op)}
    {r : Except IoError (ChainDelta Op)}
    (h : Run mayFail root d { tail := tail, reported := reported })
    (hexec : (Tail.drain d).exec tail = (r, tail')) :
    (∃ delta, r = .ok delta ∧ Run mayFail root d { tail := tail', reported := reported ++ [delta] })
      ∨ (∃ error, r = .error error) ∧ ∃ (g : Follower Op C) (n : ℕ),
        g.reported = reported ∧ Run mayFail root d g ∧ FailedTurn d g.tail n tail' := by
  rcases h.drainLoop _ rfl hexec with ⟨g, rfl, hdelta, rfl, hreported, hrun⟩ | hfails
  · refine .inl ⟨_, rfl, ?_⟩
    have hreturns := hrun.drain_returns
    unfold Follower.deltas Follower.pending at hreturns
    rw [hdelta, fold_nothing, hreported] at hreturns
    exact hreturns
  · exact .inr hfails

/-- A poll on a directory. -/
lemma Run.poll {tail tail' : Tail C} {reported : List (ChainDelta Op)}
    {r : Except IoError (ChainDelta Op)}
    (h : Run mayFail root d { tail := tail, reported := reported })
    (hexec : (Tail.poll d).exec tail = (r, tail')) :
    (∃ delta, r = .ok delta ∧ Run mayFail root d { tail := tail', reported := reported ++ [delta] })
      ∨ (∃ error, r = .error error) ∧ ∃ (g : Follower Op C) (n : ℕ),
        g.reported = reported ∧ Run mayFail root d g ∧ FailedTurn d g.tail n tail' := by
  rcases h.pollLoop _ hexec with ⟨delta, rfl, hrun⟩ | ⟨herror, middle, delta, n, hrun, hfailed⟩
  · exact .inl ⟨_, rfl, hrun.poll_returns rfl⟩
  · exact .inr ⟨herror, ⟨middle, {}, delta, reported⟩, n, rfl, hrun, hfailed⟩

/-- The deltas account for all that is accepted and for every identity in conflict, no identity is
added twice, and the tail is one that never failed. -/
structure Intact (root : String) (d : Directory) (f : Follower Op C) : Prop where
  accounted : ∀ id : OpId, (shown f.deltas).added[id]? = AccountedCorpus.accepted f.tail.chain id
  removed : ∀ id, id ∈ (shown f.deltas).removed ↔ AccountedCorpus.quarantined f.tail.chain id
  once : AddedOnce f.deltas
  unfailing : ∃ deltas, Run False root d { f with reported := deltas }

lemma Run.intact (h : Run mayFail root d f) : Intact root d f := by
  obtain ⟨base, middle, haccounted⟩ := h.accounted
  have htold := told haccounted.pending
  refine ⟨fun id => ?_, fun id => ?_,
    (haccounted.once.append haccounted.known haccounted.pending).1, h.without_failures⟩
  · unfold Follower.deltas
    rw [shown_append]
    exact htold.shown haccounted.shown id
  · unfold Follower.deltas
    rw [shown_append, Tail.mem_removed_fold, haccounted.gone, htold.quarantined]

end

end Calls

section

variable [Schema Op] [Checksum] {d : Directory}

/-! ## The indexed corpus -/

lemma ChainDelta.Tracks.grows {d' : Directory} {delta : ChainDelta Op}
    {before after : IndexedChain Op} (h : delta.Tracks d before after) (hgrows : d.Grows d') :
    delta.Tracks d' before after := by
  refine ⟨fun id op location hadded => ?_, h.removed, h.kept, h.seen⟩
  obtain ⟨hfresh, hentry, hread, hid⟩ := h.added id op location hadded
  exact ⟨hfresh, hentry, readOpAt_grows hgrows hread, hid⟩

namespace IndexedChain

/-- The accepted operation of an identity, with its record. -/
def located (chain : IndexedChain Op) (id : OpId) : Option (Op × OpRecordLocation) :=
  chain.entries[id]?.bind fun entry => entry.accepted.map fun op => (op, entry.location)

/-- An identity that conflicting records were quarantined for. -/
def Quarantines (chain : IndexedChain Op) (id : OpId) : Prop :=
  ∃ entry, chain.entries[id]? = some entry ∧ entry.accepted = none

/-- An admission that cannot be decided changes nothing. -/
lemma admitRecord_refused {op : Op} {encoded : Bytes} {location : OpRecordLocation}
    {chain chain' : IndexedChain Op} {error : IoError}
    (hexec : (admitRecord d op encoded location).exec chain = (.error error, chain')) :
    chain' = chain := by
  unfold admitRecord at hexec
  rw [exec_bind_of_ok (exec_get chain)] at hexec
  dsimp only at hexec
  rcases exec_bind_eq_error.mp hexec with hclassify | ⟨found, same, hclassify, hexec⟩
  · exact (Prod.mk.inj hclassify).2.symm
  · obtain ⟨hverdict, rfl⟩ := Prod.mk.inj hclassify
    cases found with
    | accepted => cases hexec
    | duplicate => cases hexec
    | conflict =>
      dsimp only at hexec
      split at hexec
      · next hnone =>
        -- an identity without an entry is never in conflict
        unfold classify at hverdict
        rw [hnone] at hverdict
        cases hverdict
      · cases hexec

lemma told_of_tracks {delta : ChainDelta Op} {before after : IndexedChain Op}
    (h : delta.Tracks d before after) :
    delta.Told located (fun chain id => chain.entries[id]?.isSome) Quarantines before after := by
  refine ⟨fun id r hadded => ?_, fun id hid => ?_, fun id hremoved hadded => ?_, h.seen,
    fun id => ?_⟩
  · obtain ⟨hfresh, hentry, -⟩ := h.added id r.1 r.2 hadded
    refine ⟨by rw [hfresh]; exact Bool.false_ne_true, by rw [hentry]; rfl, ?_⟩
    unfold located
    rw [hentry]
    rfl
  · obtain ⟨entry, hentry, hnone⟩ := h.removed id hid
    unfold located
    rw [hentry, Option.bind_some, hnone]
    rfl
  · unfold located
    rw [h.kept id hremoved hadded]
  · by_cases hremoved : id ∈ delta.removed
    · exact iff_of_true (h.removed id hremoved) (.inl hremoved)
    · rw [or_iff_right hremoved]
      unfold Quarantines
      cases hadded : delta.added[id]? with
      | none => rw [h.kept id hremoved hadded]
      | some r =>
        obtain ⟨hfresh, hentry, -⟩ := h.added id r.1 r.2 hadded
        simp [hfresh, hentry]

end IndexedChain

instance : AccountedCorpus Op (IndexedChain Op) where
  accepted := IndexedChain.located
  known chain id := chain.entries[id]?.isSome
  quarantined := IndexedChain.Quarantines
  Tells d delta before after := delta.Tracks d before after ∧ Tail.Idles delta
  nothing id := by
    refine ⟨?_, ?_⟩
    · show (({} : IndexedChain Op).entries[id]?.bind _) = none
      simp
    · rintro ⟨entry, hentry, -⟩
      simp [TailCorpus.empty] at hentry
  refuted := by
    rintro chain id ⟨entry, hentry, hnone⟩
    unfold IndexedChain.located
    rw [hentry, Option.bind_some, hnone]
    rfl
  start _ := ⟨ChainDelta.Tracks.refl _, fun _ => ⟨rfl, rfl⟩⟩
  again _ := ⟨ChainDelta.Tracks.refl _, fun _ => ⟨rfl, rfl⟩⟩
  fold h h' := ⟨h.1.fold h'.1, h.2.fold h'.2⟩
  grows hgrows h := ⟨h.1.grows hgrows, h.2⟩
  read h hexec := Tail.admitFrontier_tells Tail.tells_tracks h.1 h.2 hexec
  told h := IndexedChain.told_of_tracks h.1
  refused := IndexedChain.admitRecord_refused

/-! ## The canonical corpus -/

namespace CanonicalChain

/-- The accepted operation of an identity, with its record. -/
def located (chain : CanonicalChain Op) (id : OpId) : Option (Op × OpRecordLocation) :=
  chain.accepted[id]?.bind fun r => r.2.map fun location => (r.1, location)

/-- An identity with evidence of which nothing is accepted. -/
def Quarantines (chain : CanonicalChain Op) (id : OpId) : Prop :=
  id ∈ KeyedEvidence.keys chain.evidence.pairs ∧ id ∉ chain.accepted

/-- There is evidence for what is accepted. -/
def Evident (chain : CanonicalChain Op) : Prop :=
  ∀ id ∈ chain.accepted, id ∈ KeyedEvidence.keys chain.evidence.pairs

omit [Checksum] in
lemma Evident.scanRecord {chain : CanonicalChain Op} (h : chain.Evident) (segment : ℕ)
    (record : RecordRef) : (chain.scanRecord segment record).Evident := by
  unfold CanonicalChain.scanRecord
  split
  · next op hop =>
    unfold admitOp
    rw [OpSet.insert_eq]
    have hkeys : KeyedEvidence.keys (chain.evidence.retain (Schema.id op) record.data).pairs
        = insert (Schema.id op) (KeyedEvidence.keys chain.evidence.pairs) := by
      rw [OpSet.pairs_retain, KeyedEvidence.keys_insert]
    cases chain.evidence.classify (Schema.id op) record.data with
    | accepted =>
      intro id hid
      show id ∈ KeyedEvidence.keys _
      rw [hkeys, Finset.mem_insert]
      rcases ExtTreeMap.mem_insert.mp hid with heq | hid
      · exact .inl (Std.compare_eq_iff_eq.mp heq).symm
      · exact .inr (h id hid)
    | duplicate =>
      intro id hid
      show id ∈ KeyedEvidence.keys _
      rw [hkeys, Finset.mem_insert]
      exact .inr (h id hid)
    | conflict =>
      intro id hid
      show id ∈ KeyedEvidence.keys _
      rw [hkeys, Finset.mem_insert]
      exact .inr (h id (ExtTreeMap.mem_of_mem_erase hid))
  · exact h

omit [Checksum] in
lemma Evident.admitAll {chain : CanonicalChain Op} (h : chain.Evident) (segment : ℕ)
    (records : List RecordRef) : (chain.admitAll segment records).Evident := by
  induction records generalizing chain with
  | nil => exact h
  | cons record records ih => exact ih (h.scanRecord segment record)

/-- A slice of the frontier file brings its evidence along. -/
lemma Evident.admitFrontier {metadata : FileStamp} {bytes : Bytes} {delta delta' : ChainDelta Op}
    {tail tail' : Tail (CanonicalChain Op)} {before : CanonicalChain Op} (h : tail.chain.Evident)
    (haccounts : delta.Accounts before tail.chain)
    (hexec : (Tail.admitFrontier d metadata bytes delta).exec tail = (.ok delta', tail')) :
    tail'.chain.Evident := by
  by_cases hbad : ∃ e, (pages.run tail.page bytes).ending = .bad e
  · obtain ⟨e, hbad⟩ := hbad
    obtain ⟨error, herror⟩ := Tail.exec_admitFrontier_of_bad d metadata bytes delta tail hbad
    rw [herror] at hexec
    cases hexec
  · obtain ⟨delta₁, hexec₁, -⟩ := Tail.exec_admitFrontier d metadata bytes delta tail haccounts
      (fun e he => hbad ⟨e, he⟩)
    rw [hexec₁] at hexec
    cases hexec
    have hadmitted := h.admitAll tail.segment
      ((unitRecords (pages.run tail.page bytes).units).map (·.shift tail.offset))
    exact hadmitted

omit [Schema Op] [Checksum] in
lemma told_of_accounts {delta : ChainDelta Op} {before after : CanonicalChain Op}
    (h : delta.Accounts before after) (hafter : after.Evident) :
    delta.Told located (fun chain id => id ∈ KeyedEvidence.keys chain.evidence.pairs) Quarantines
      before after := by
  refine ⟨fun id r hadded => ?_, fun id hid => ?_, fun id hremoved hadded => ?_,
    fun id hid => h.evidence hid, fun id => ?_⟩
  · have hmem : id ∈ delta.added := by
      rw [← ExtTreeMap.isSome_getElem?_iff_mem, hadded]
      rfl
    have hentry := h.added id r.1 r.2 hadded
    refine ⟨h.fresh id hmem, hafter id ((h.accepted id).mpr (.inr hmem)), ?_⟩
    unfold located
    rw [hentry]
    rfl
  · have hgone : id ∉ after.accepted := by
      rw [h.accepted]
      exact fun hor => hor.elim (fun hkept => hkept.2 hid) (h.retracted id hid)
    unfold located
    rw [ExtTreeMap.getElem?_eq_none hgone]
    rfl
  · have hnot : id ∉ delta.added := by
      rw [← ExtTreeMap.isSome_getElem?_iff_mem, hadded]
      exact Bool.false_ne_true
    unfold located
    rw [h.kept id hremoved hnot]
  · unfold Quarantines
    rw [h.accepted id]
    constructor
    · intro ⟨hseen, hnone⟩
      rcases h.covered id hseen with hold | hadded | hgone
      · by_cases hgone : id ∈ delta.removed
        · exact .inl hgone
        · exact .inr ⟨hold, fun haccepted => hnone (.inl ⟨haccepted, hgone⟩)⟩
      · exact absurd (.inr hadded) hnone
      · exact .inl hgone
    · rintro (hgone | ⟨hold, hnone⟩)
      · exact ⟨h.seen id hgone, fun hor =>
          hor.elim (fun hkept => hkept.2 hgone) (h.retracted id hgone)⟩
      · exact ⟨h.evidence hold, fun hor =>
          hor.elim (fun hkept => hnone hkept.1) fun hadded => h.fresh id hadded hold⟩

end CanonicalChain

instance : AccountedCorpus Op (CanonicalChain Op) where
  accepted := CanonicalChain.located
  known chain id := id ∈ KeyedEvidence.keys chain.evidence.pairs
  quarantined := CanonicalChain.Quarantines
  Tells _ delta before after := delta.Accounts before after ∧ after.Evident
  nothing id := by
    refine ⟨?_, ?_⟩
    · show (({} : CanonicalChain Op).accepted[id]?.bind _) = none
      simp
    · rintro ⟨hid, -⟩
      simp [TailCorpus.empty] at hid
  refuted := by
    rintro chain id ⟨-, hnone⟩
    unfold CanonicalChain.located
    rw [ExtTreeMap.getElem?_eq_none hnone]
    rfl
  start _ := ⟨ChainDelta.Accounts.refl _, fun id hid => by simp [TailCorpus.empty] at hid⟩
  again h := ⟨ChainDelta.Accounts.refl _, h.2⟩
  fold h h' := ⟨h.1.fold h'.1, h'.2⟩
  grows _ h := h
  read h hexec := ⟨Tail.admitFrontier_accounts h.1 hexec, h.2.admitFrontier h.1 hexec⟩
  told h := CanonicalChain.told_of_accounts h.1 h.2
  refused hexec := by cases hexec

/-! ## Harmless failures -/

namespace Calls

/-- In a run whose failures are harmless the deltas account for every addition and removal, each
addition once, and the tail is that of a run without failures. -/
theorem harmless_failures_lose_nothing (root : String) (d : Directory) :
    (∀ f : Follower Op (CanonicalChain Op), Run True root d f → Intact root d f)
      ∧ ∀ f : Follower Op (IndexedChain Op), Run True root d f → Intact root d f :=
  ⟨fun _ h => h.intact, fun _ h => h.intact⟩

/-- A directory with two segments. -/
def twoSegments (first second : Bytes) : Directory :=
  { Directory.empty with
    segments := (ExtTreeMap.empty.insert 0 ⟨first, (1, 7), 1⟩).insert 1 ⟨second, (1, 8), 1⟩ }

end Calls

end

namespace Calls

local instance calledSchema : Schema OpId := messageSchema

local instance calledChecksum : Checksum := crc32cChecksum

/-- A drain after a call that could not open the segment. -/
theorem harmless_failures_lose_nothing_message :
    ∃ (delta : ChainDelta OpId) (tail : Tail (IndexedChain OpId)),
      (Tail.drain (oneSegment messageFrame 1)).exec (Tail.empty "chain") = (.ok delta, tail)
        ∧ Intact "chain" (oneSegment messageFrame 1) { tail := tail, reported := [delta] } := by
  have hdrains : ((Tail.drain (oneSegment messageFrame 1)).exec
      (Tail.empty "chain" : Tail (IndexedChain OpId))).1.toOption.isSome = true := by
    decide +kernel
  cases hexec : (Tail.drain (oneSegment messageFrame 1)).exec
      (Tail.empty "chain" : Tail (IndexedChain OpId)) with
  | mk r tail =>
    have hopen : Run True "chain" (oneSegment messageFrame 1)
        { tail := (Tail.empty "chain" : Tail (IndexedChain OpId)) } :=
      .call_fails trivial (.start _) (.outside (d := oneSegment [] 1)) ⟨rfl, rfl, nofun⟩
    rw [hexec] at hdrains
    rcases hopen.drain hexec with ⟨delta, rfl, hrun⟩ | ⟨⟨error, rfl⟩, -⟩
    · exact ⟨delta, tail, rfl, (harmless_failures_lose_nothing "chain" _).2 _ hrun⟩
    · cases hdrains

/-- The first segment has been admitted when the framing of the second turns out to be invalid. Once
that is repaired, the next drain does not report the operation of the first segment. -/
theorem drain_drops_earlier_polls :
    ∃ (error : IoError) (delta : ChainDelta OpId) (failed tail : Tail (CanonicalChain OpId)),
      (Tail.drain (twoSegments messageFrame (List.replicate 40 0))).exec (Tail.empty "chain")
          = (.error error, failed)
        ∧ (Tail.drain (twoSegments messageFrame [])).exec failed = (.ok delta, tail)
        ∧ (Tail.empty "chain" : Tail (CanonicalChain OpId)).chain.located messageId = none
        ∧ delta.added[messageId]? = none ∧ tail.chain.located messageId ≠ none := by
  have hfails : ((Tail.drain (twoSegments messageFrame (List.replicate 40 0))).exec
      (Tail.empty "chain" : Tail (CanonicalChain OpId))).1.toOption.isNone = true := by
    decide +kernel
  have hdrains : (match (Tail.drain (twoSegments messageFrame [])).exec
      ((Tail.drain (twoSegments messageFrame (List.replicate 40 0))).exec
        (Tail.empty "chain" : Tail (CanonicalChain OpId))).2 with
      | (.ok delta, tail) =>
        (delta.added[messageId]?).isNone && (tail.chain.located messageId).isSome
      | (.error _, _) => false) = true := by
    decide +kernel
  cases hbad : (Tail.drain (twoSegments messageFrame (List.replicate 40 0))).exec
      (Tail.empty "chain" : Tail (CanonicalChain OpId)) with
  | mk r failed =>
    rw [hbad] at hfails hdrains
    cases r with
    | ok delta => cases hfails
    | error error =>
      dsimp only at hdrains
      cases hgood : (Tail.drain (twoSegments messageFrame [])).exec failed with
      | mk r tail =>
        rw [hgood] at hdrains
        cases r with
        | error error => cases hdrains
        | ok delta =>
          dsimp only at hdrains
          rw [Bool.and_eq_true, Option.isNone_iff_eq_none, Option.isSome_iff_ne_none] at hdrains
          exact ⟨error, delta, failed, tail, rfl, hgood, rfl, hdrains⟩

end Calls

end EditChain.Store
