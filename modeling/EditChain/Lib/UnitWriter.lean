import EditChain.Lib.UnitReader

/-!
# Written units, cut anywhere

A string that was written unit by unit is read back unit by unit, provided that the reader finds
each unit in the state that the units before it leave, and asks for more at every proper part of it.
Then any prefix of the string, wherever it is cut, is read as the units that are wholly in it, and
at most one request for more (`run_of_writes`).
-/

namespace UnitReader

variable {α σ ι ε : Type}

/-- The reader finds `units`, each given by its elements and its value, from state `s` on. -/
inductive Writes (R : UnitReader α σ ι ε) : σ → List (List α × ι) → Prop where
  | nil (s : σ) : Writes R s []
  | cons {s t : σ} {x : List α} {i : ι} {units : List (List α × ι)}
      (unit : R.next s x = .unit i x.length t)
      (cut : ∀ y, y <+: x → y ≠ [] → y.length < x.length → R.next s y = .more)
      (rest : Writes R t units) : Writes R s ((x, i) :: units)

/-- The elements of some units. -/
def contents (units : List (List α × ι)) : List α := units.flatMap Prod.fst

/-- The units that are wholly in the first `n` elements, with their places. -/
def whole : ℕ → List (List α × ι) → List (ℕ × ι)
  | _, [] => []
  | n, (x, i) :: units =>
    if n < x.length then []
    else (0, i) :: (whole (n - x.length) units).map fun u => (x.length + u.1, u.2)

/-- How many of the first `n` elements belong to units that are wholly in them. -/
def wholeLength : ℕ → List (List α × ι) → ℕ
  | _, [] => 0
  | n, (x, _) :: units => if n < x.length then 0 else x.length + wholeLength (n - x.length) units

variable {R : UnitReader α σ ι ε} {s t : σ} {units us : List (List α × ι)} {p : List α}

@[simp] lemma contents_cons (x : List α) (i : ι) (units : List (List α × ι)) :
    contents ((x, i) :: units) = x ++ contents units := rfl

lemma contents_append (us vs : List (List α × ι)) :
    contents (us ++ vs) = contents us ++ contents vs := List.flatMap_append

lemma Writes.ne_nil (h : Writes R s units) : ∀ unit ∈ units, unit.1 ≠ [] := by
  induction h with
  | nil s => simp
  | cons hunit _ _ ih => exact List.forall_mem_cons.mpr ⟨ne_nil_of_unit hunit, ih⟩

/-- Any prefix of written units is read as the units that are wholly in it. -/
theorem run_of_writes (h : Writes R s units) (hp : p <+: contents units) :
    (R.run s p).units = whole p.length units
      ∧ (R.run s p).consumed = wholeLength p.length units
      ∧ (R.run s p).ending = if wholeLength p.length units = p.length then .clean else .more := by
  induction h generalizing p with
  | nil s =>
    rw [show p = [] from List.prefix_nil.mp hp]
    simp [whole, wholeLength]
  | @cons s t x i units hunit hcut _ ih =>
    rw [contents_cons] at hp
    have hpos := R.size_pos hunit
    rw [whole, wholeLength]
    by_cases hlt : p.length < x.length
    · rw [if_pos hlt, if_pos hlt]
      by_cases hnil : p = []
      · simp [hnil]
      · -- the cut falls into this unit
        have hpart : p <+: x := List.prefix_of_prefix_length_le hp (List.prefix_append x _)
          (Nat.le_of_lt hlt)
        rw [run_of_more hnil (hcut p hpart hnil hlt)]
        refine ⟨rfl, rfl, ?_⟩
        rw [if_neg]
        intro hzero
        exact hnil (List.length_eq_zero_iff.mp hzero.symm)
    · rw [if_neg hlt, if_neg hlt]
      obtain ⟨q, rfl⟩ : ∃ q, p = x ++ q := by
        obtain ⟨q, hq⟩ := List.prefix_of_prefix_length_le (List.prefix_append x _) hp (by omega)
        exact ⟨q, hq.symm⟩
      obtain ⟨hunits, hconsumed, hending⟩ := ih ((List.prefix_append_right_inj x).mp hp)
      have hlen : (x ++ q).length - x.length = q.length := by simp
      rw [run_of_unit (R.unit_append q hunit), List.drop_left, hlen]
      refine ⟨?_, ?_, ?_⟩
      · simp [Scan.prepend, Scan.shift, hunits]
      · simp [Scan.prepend, Scan.shift, hconsumed]
      · simp only [Scan.prepend, Scan.shift, hending, List.length_append, Nat.add_left_cancel_iff]

/-- The units that are wholly in the first `n` elements are the first so many of them. -/
lemma exists_whole (n : ℕ) (units : List (List α × ι)) :
    ∃ count ≤ units.length, (whole n units).map Prod.snd = (units.take count).map Prod.snd
      ∧ wholeLength n units = (contents (units.take count)).length
      ∧ ∀ i ≤ units.length, i ≤ count ↔ (contents (units.take i)).length ≤ n := by
  induction units generalizing n with
  | nil => exact ⟨0, Nat.le_refl 0, rfl, rfl, by simp [contents]⟩
  | cons unit units ih =>
    obtain ⟨x, i⟩ := unit
    rw [whole, wholeLength]
    by_cases hlt : n < x.length
    · rw [if_pos hlt, if_pos hlt]
      refine ⟨0, Nat.zero_le _, rfl, rfl, fun j _ => ?_⟩
      cases j with
      | zero => simp [contents]
      | succ j =>
        rw [List.take_succ_cons, contents_cons, List.length_append]
        omega
    · rw [if_neg hlt, if_neg hlt]
      obtain ⟨count, hcount, hwhole, hlength, harrived⟩ := ih (n - x.length)
      refine ⟨count + 1, Nat.succ_le_succ hcount, ?_, ?_, fun j hj => ?_⟩
      · simp [hwhole, Function.comp_def]
      · rw [List.take_succ_cons, contents_cons, List.length_append, hlength]
      · cases j with
        | zero => simp [contents]
        | succ j =>
          have := harrived j (by simpa using hj)
          rw [List.take_succ_cons, contents_cons, List.length_append]
          omega

end UnitReader
