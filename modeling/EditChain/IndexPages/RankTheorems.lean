import EditChain.IndexPages.Rank
import EditChain.IndexPages.RankTreeTheorems
import Mathlib.Algebra.BigOperators.Group.List.Basic
import Mathlib.Algebra.Group.Prod
import Mathlib.Order.Nat

/-!
# Rank and select are exact inverses

Saturating sums of weights are sums of numbers, cut off at the end. So a query that adds up weights
on its way down returns the cut-off sum over a sublist of the blocks, and the sum itself as long as
the total fits.
-/

namespace EditChain.IndexPages

variable {K V : Type}

/-! ## Sums of weights -/

namespace Measure

/-- The two counts, as numbers. -/
def counts (measure : Measure) : ℕ × ℕ := (measure.expanded.toNat, measure.visible.toNat)

/-- Two counts, cut off where they do not fit. -/
def cap (counts : ℕ × ℕ) : Measure :=
  ⟨UInt64.ofNat (min counts.1 (2 ^ 64 - 1)), UInt64.ofNat (min counts.2 (2 ^ 64 - 1))⟩

lemma toNat_cap (n : ℕ) : (UInt64.ofNat (min n (2 ^ 64 - 1))).toNat = min n (2 ^ 64 - 1) := by
  rw [UInt64.toNat_ofNat_of_lt']
  show _ < 2 ^ 64
  omega

lemma saturatingAdd_cap (a b : ℕ) :
    saturatingAdd (UInt64.ofNat (min a (2 ^ 64 - 1))) (UInt64.ofNat (min b (2 ^ 64 - 1)))
      = UInt64.ofNat (min (a + b) (2 ^ 64 - 1)) := by
  unfold saturatingAdd
  rw [toNat_cap, toNat_cap]
  congr 1
  omega

lemma cap_plus (a b : ℕ × ℕ) : (cap a).plus (cap b) = cap (a + b) := by
  unfold plus cap
  rw [saturatingAdd_cap, saturatingAdd_cap]
  rfl

lemma cap_zero : cap 0 = {} := by decide

lemma cap_counts (measure : Measure) : cap measure.counts = measure := by
  have hexpanded := measure.expanded.toNat_lt
  have hvisible := measure.visible.toNat_lt
  unfold cap counts
  rw [Nat.min_eq_left (Nat.le_sub_one_of_lt hexpanded),
    Nat.min_eq_left (Nat.le_sub_one_of_lt hvisible), UInt64.ofNat_toNat, UInt64.ofNat_toNat]

/-- Both counts fit. -/
def Fits (counts : ℕ × ℕ) : Prop := counts.1 < 2 ^ 64 ∧ counts.2 < 2 ^ 64

lemma counts_cap {n : ℕ × ℕ} (h : Fits n) : (cap n).counts = n := by
  unfold counts cap
  rw [toNat_cap, toNat_cap, Nat.min_eq_left (Nat.le_sub_one_of_lt h.1),
    Nat.min_eq_left (Nat.le_sub_one_of_lt h.2)]

lemma Fits.left {a b : ℕ × ℕ} (h : Fits (a + b)) : Fits a :=
  ⟨Nat.lt_of_le_of_lt (Nat.le_add_right _ _) h.1, Nat.lt_of_le_of_lt (Nat.le_add_right _ _) h.2⟩

end Measure

/-- The count of an axis. -/
def Axis.of : Axis → ℕ × ℕ → ℕ
  | .expanded, counts => counts.1
  | .visible, counts => counts.2

lemma Axis.of_add (axis : Axis) (a b : ℕ × ℕ) : axis.of (a + b) = axis.of a + axis.of b := by
  cases axis <;> rfl

lemma Axis.of_counts (axis : Axis) (measure : Measure) :
    axis.of measure.counts = (measure.along axis).toNat := by
  cases axis <;> rfl

/-- Comparing with a sum that fits. -/
lemma lt_along_cap {n : ℕ × ℕ} (h : Measure.Fits n) (offset : UInt64) (axis : Axis) :
    offset < (Measure.cap n).along axis ↔ offset.toNat < axis.of n := by
  rw [UInt64.lt_iff_toNat_lt, ← Axis.of_counts, Measure.counts_cap h]

/-- The total weight of some blocks, componentwise. -/
def weigh (blocks : List (Block K V)) : ℕ × ℕ := (blocks.map fun block => block.2.2.counts).sum

@[simp] lemma weigh_nil : weigh ([] : List (Block K V)) = 0 := rfl

@[simp] lemma weigh_cons (block : Block K V) (blocks : List (Block K V)) :
    weigh (block :: blocks) = block.2.2.counts + weigh blocks := by
  simp [weigh]

@[simp] lemma weigh_append (xs ys : List (Block K V)) : weigh (xs ++ ys) = weigh xs + weigh ys := by
  simp [weigh]

lemma weigh_le_of_sublist {xs ys : List (Block K V)} (h : xs.Sublist ys) :
    (weigh xs).1 ≤ (weigh ys).1 ∧ (weigh xs).2 ≤ (weigh ys).2 := by
  induction h with
  | slnil => exact ⟨Nat.le_refl _, Nat.le_refl _⟩
  | cons block _ ih =>
    rw [weigh_cons]
    exact ⟨Nat.le_add_left_of_le ih.1, Nat.le_add_left_of_le ih.2⟩
  | cons_cons block _ ih =>
    rw [weigh_cons, weigh_cons]
    exact ⟨Nat.add_le_add_left ih.1 _, Nat.add_le_add_left ih.2 _⟩

lemma fits_of_sublist {xs ys : List (Block K V)} (h : xs.Sublist ys)
    (hfits : Measure.Fits (weigh ys)) : Measure.Fits (weigh xs) :=
  ⟨Nat.lt_of_le_of_lt (weigh_le_of_sublist h).1 hfits.1,
    Nat.lt_of_le_of_lt (weigh_le_of_sublist h).2 hfits.2⟩

/-- The block at which an offset lies. -/
lemma exists_block (axis : Axis) (offset : ℕ) (blocks : List (Block K V)) (n : ℕ × ℕ)
    (hlow : axis.of n ≤ offset) (hhigh : offset < axis.of (n + weigh blocks)) :
    ∃ xs block ys, blocks = xs ++ block :: ys ∧ axis.of (n + weigh xs) ≤ offset
      ∧ offset < axis.of (n + weigh xs + block.2.2.counts) := by
  induction blocks generalizing n with
  | nil =>
    rw [weigh_nil, add_zero] at hhigh
    omega
  | cons block blocks ih =>
    by_cases hhere : offset < axis.of (n + block.2.2.counts)
    · exact ⟨[], block, blocks, rfl, by simpa using hlow, by simpa using hhere⟩
    · rw [weigh_cons, ← add_assoc] at hhigh
      obtain ⟨xs, found, ys, rfl, hlow', hhigh'⟩ := ih _ (by omega) hhigh
      refine ⟨block :: xs, found, ys, rfl, ?_, ?_⟩
      · rwa [weigh_cons, ← add_assoc]
      · rwa [weigh_cons, ← add_assoc]

/-! ## Descents -/

namespace Tree

lemma total_eq_cap (tree : Tree K V) : tree.total = Measure.cap (weigh tree.entries) := by
  induction tree with
  | none => exact Measure.cap_zero.symm
  | node key value weight sum height left right ihl ihr =>
    rw [total, entries, ihl, ihr, weigh_append, weigh_cons, ← Measure.cap_counts weight,
      Measure.cap_plus, Measure.cap_plus, Measure.cap_counts, add_assoc]

lemma Sound.measure_eq_cap {tree : Tree K V} (h : tree.Sound) :
    tree.measure = Measure.cap (weigh tree.entries) := by
  rw [h.measure_eq, total_eq_cap]

/-- The sum that a descent carries past a node and what is left of it. -/
lemma carry_eq_cap {left : Tree K V} (h : left.Sound) (n : ℕ × ℕ) (weight : Measure) :
    ((Measure.cap n).plus left.measure).plus weight
      = Measure.cap (n + weigh left.entries + weight.counts) := by
  rw [h.measure_eq_cap, Measure.cap_plus]
  conv_lhs => rw [← Measure.cap_counts weight]
  rw [Measure.cap_plus]

section Order

variable [LinearOrder K]

/-- The blocks with smaller keys. -/
def smaller (key : K) (blocks : List (Block K V)) : List (Block K V) :=
  blocks.filter fun block => block.1 < key

lemma smaller_sublist (key : K) (blocks : List (Block K V)) :
    (smaller key blocks).Sublist blocks := List.filter_sublist

lemma smaller_of_le {key : K} {blocks : List (Block K V)} (h : ∀ b ∈ blocks, key ≤ b.1) :
    smaller key blocks = [] := by
  unfold smaller
  rw [List.filter_eq_nil_iff]
  intro block hblock
  simpa using h block hblock

lemma smaller_of_lt {key : K} {blocks : List (Block K V)} (h : ∀ b ∈ blocks, b.1 < key) :
    smaller key blocks = blocks := by
  unfold smaller
  rw [List.filter_eq_self]
  intro block hblock
  simpa using h block hblock

section Node

variable {key key' : K} {value : V} {weight sum : Measure} {height : ℕ} {left right : Tree K V}

lemma smaller_node_of_le (h : (node key' value weight sum height left right).Ordered)
    (hkey : key ≤ key') :
    smaller key (node key' value weight sum height left right).entries
      = smaller key left.entries := by
  obtain ⟨-, -, -, hmore⟩ := ordered_node.1 h
  have hright : smaller key ((key', value, weight) :: right.entries) = [] := by
    apply smaller_of_le
    intro b hb
    rcases List.mem_cons.mp hb with rfl | hb
    · exact hkey
    · exact hkey.trans (hmore b hb).le
  unfold smaller at hright ⊢
  rw [entries, List.filter_append, hright, List.append_nil]

lemma smaller_node_of_lt (h : (node key' value weight sum height left right).Ordered)
    (hkey : key' < key) :
    smaller key (node key' value weight sum height left right).entries
      = left.entries ++ (key', value, weight) :: smaller key right.entries := by
  obtain ⟨-, -, hless, -⟩ := ordered_node.1 h
  have hleft : smaller key left.entries = left.entries :=
    smaller_of_lt fun b hb => (hless b hb).trans hkey
  unfold smaller at hleft ⊢
  rw [entries, List.filter_append, hleft, List.filter_cons, if_pos (by simpa using hkey)]

lemma smaller_node_self (h : (node key value weight sum height left right).Ordered) :
    smaller key (node key value weight sum height left right).entries = left.entries := by
  obtain ⟨-, -, hless, -⟩ := ordered_node.1 h
  rw [smaller_node_of_le h le_rfl]
  exact smaller_of_lt hless

end Node

/-- What is before a block. -/
lemma smaller_of_split {tree : Tree K V} (h : tree.Ordered) {xs ys : List (Block K V)}
    {block : Block K V} (hblocks : tree.entries = xs ++ block :: ys) :
    smaller block.1 tree.entries = xs := by
  unfold Ordered at h
  rw [hblocks, List.pairwise_append, List.pairwise_cons] at h
  obtain ⟨-, ⟨hmore, -⟩, hless⟩ := h
  have hxs : smaller block.1 xs = xs :=
    smaller_of_lt fun b hb => hless b hb block List.mem_cons_self
  have hys : smaller block.1 (block :: ys) = [] := by
    apply smaller_of_le
    intro b hb
    rcases List.mem_cons.mp hb with rfl | hb
    · exact le_rfl
    · exact (hmore b hb).le
  unfold smaller at hxs hys ⊢
  rw [hblocks, List.filter_append, hxs, hys, List.append_nil]

/-- `prefix` adds up the weights of the smaller keys. -/
lemma before_eq_cap (key : K) {tree : Tree K V} (hsound : tree.Sound) (hordered : tree.Ordered)
    (n : ℕ × ℕ) :
    tree.before key (Measure.cap n) = Measure.cap (n + weigh (smaller key tree.entries)) := by
  induction tree generalizing n with
  | none => simp [before, entries, smaller]
  | node key' value weight sum height left right ihl ihr =>
    obtain ⟨-, -, -, -, hleft, hright⟩ := hsound
    obtain ⟨holeft, horight, -, -⟩ := ordered_node.1 hordered
    rw [before]
    by_cases hkey : key ≤ key'
    · rw [if_pos hkey, ihl hleft holeft, smaller_node_of_le hordered hkey]
    · rw [if_neg hkey, carry_eq_cap hleft, ihr hright horight,
        smaller_node_of_lt hordered (lt_of_not_ge hkey), weigh_append, weigh_cons]
      simp only [add_assoc]

/-- `rank` does the same for a key that is there. -/
lemma rank_eq_cap (key : K) {tree : Tree K V} (hsound : tree.Sound) (hordered : tree.Ordered)
    (n : ℕ × ℕ) :
    tree.rank key (Measure.cap n)
      = if key ∈ tree.entries.map Prod.fst then
          some (Measure.cap (n + weigh (smaller key tree.entries)))
        else .none := by
  induction tree generalizing n with
  | none => simp [rank, entries]
  | node key' value weight sum height left right ihl ihr =>
    obtain ⟨-, -, -, -, hleft, hright⟩ := hsound
    obtain ⟨holeft, horight, hless, hmore⟩ := ordered_node.1 hordered
    have hmem : key ∈ (node key' value weight sum height left right).entries.map Prod.fst
        ↔ key ∈ left.entries.map Prod.fst ∨ key = key' ∨ key ∈ right.entries.map Prod.fst := by
      rw [entries, List.map_append, List.map_cons, List.mem_append, List.mem_cons]
    rw [rank]
    rcases lt_trichotomy key key' with hlt | rfl | hgt
    · have hother : key ∉ right.entries.map Prod.fst := by
        intro hkey
        obtain ⟨b, hb, rfl⟩ := List.mem_map.mp hkey
        exact lt_asymm hlt (hmore b hb)
      rw [compare_lt_iff_lt.mpr hlt]
      simp only [ihl hleft holeft, hmem, hlt.ne, hother, or_false,
        smaller_node_of_le hordered hlt.le]
    · rw [compare_eq_iff_eq.mpr rfl]
      simp only [hmem, true_or, or_true, if_true, hleft.measure_eq_cap, Measure.cap_plus,
        smaller_node_self hordered]
    · have hother : key ∉ left.entries.map Prod.fst := by
        intro hkey
        obtain ⟨b, hb, rfl⟩ := List.mem_map.mp hkey
        exact lt_asymm hgt (hless b hb)
      rw [compare_gt_iff_gt.mpr hgt]
      simp only [carry_eq_cap hleft, ihr hright horight, hmem, hgt.ne', hother, false_or,
        smaller_node_of_lt hordered hgt, weigh_append, weigh_cons, add_assoc]

/-! ## Batches -/

omit [LinearOrder K] in
/-- The queries on the two sides of a partition point. -/
lemma take_partitionPoint {α : Type} (p : α → Bool) (slice : List α) :
    slice.take (partitionPoint p slice) = slice.takeWhile p
      ∧ slice.drop (partitionPoint p slice) = slice.dropWhile p := by
  have hsplit := List.takeWhile_append_dropWhile (p := p) (l := slice)
  unfold partitionPoint
  generalize slice.takeWhile p = xs at hsplit ⊢
  generalize slice.dropWhile p = ys at hsplit ⊢
  rw [← hsplit]
  exact ⟨List.take_left, List.drop_left⟩

/-- Behind the partition point of sorted queries, keys are larger. -/
lemma lt_of_mem_dropWhile {key : K} {queries : List (K × ℕ)}
    (h : queries.Pairwise fun a b => a.1 ≤ b.1) :
    ∀ query ∈ queries.dropWhile fun query => query.1 ≤ key, key < query.1 := by
  induction queries with
  | nil => simp
  | cons query queries ih =>
    obtain ⟨hfirst, hrest⟩ := List.pairwise_cons.mp h
    by_cases hkey : query.1 ≤ key
    · rw [List.dropWhile_cons_of_pos (by simpa using hkey)]
      exact ih hrest
    · rw [List.dropWhile_cons_of_neg (by simpa using hkey)]
      intro other hother
      rcases List.mem_cons.mp hother with rfl | hother
      · exact lt_of_not_ge hkey
      · exact (lt_of_not_ge hkey).trans_le (hfirst other hother)

/-- A batch writes what each query would return by itself. -/
lemma prefixBatch_eq (tree : Tree K V) {queries : List (K × ℕ)}
    (h : queries.Pairwise fun a b => a.1 ≤ b.1) (sum : Measure) (output : List Measure) :
    tree.prefixBatch queries sum output
      = queries.foldl (fun output query => output.set query.2 (tree.before query.1 sum)) output := by
  induction tree generalizing queries sum output with
  | none => rfl
  | node key value weight total height left right ihl ihr =>
    rw [prefixBatch]
    cases queries with
    | nil => rfl
    | cons first others =>
      simp only [List.isEmpty_cons, Bool.false_eq_true, if_false]
      generalize first :: others = queries at h ⊢
      have hsides := take_partitionPoint (fun query : K × ℕ => decide (query.1 ≤ key)) queries
      have htake : (queries.takeWhile fun query => query.1 ≤ key).Pairwise fun a b => a.1 ≤ b.1 :=
        h.sublist (List.takeWhile_sublist _)
      have hdrop : (queries.dropWhile fun query => query.1 ≤ key).Pairwise fun a b => a.1 ≤ b.1 :=
        h.sublist (List.dropWhile_sublist _)
      rw [hsides.1, hsides.2, ihl htake, ihr hdrop]
      conv_rhs =>
        rw [← List.takeWhile_append_dropWhile (p := fun query => decide (query.1 ≤ key))
          (l := queries), List.foldl_append]
      -- each side of the partition point goes down its own child
      have hleft : ∀ output : List Measure,
          (queries.takeWhile fun query => query.1 ≤ key).foldl
              (fun output query => output.set query.2 (left.before query.1 sum)) output
            = (queries.takeWhile fun query => query.1 ≤ key).foldl (fun output query =>
              output.set query.2
                ((node key value weight total height left right).before query.1 sum)) output := by
        intro output
        apply List.foldl_ext
        intro output query hquery
        have hkey : query.1 ≤ key := by
          simpa using List.all_eq_true.mp (List.all_takeWhile (p := fun query : K × ℕ =>
            decide (query.1 ≤ key))) query hquery
        rw [before, if_pos hkey]
      rw [hleft]
      apply List.foldl_ext
      intro output query hquery
      rw [before, if_neg (not_le_of_gt (lt_of_mem_dropWhile h query hquery))]

end Order

omit V in
/-- Writing at distinct positions. -/
lemma getElem?_foldl_set {α β : Type} (f : α → β) {queries : List (α × ℕ)}
    (hdistinct : (queries.map Prod.snd).Nodup) {query : α × ℕ} (hquery : query ∈ queries)
    (output : List β) (hindex : query.2 < output.length) :
    (queries.foldl (fun output query => output.set query.2 (f query.1)) output)[query.2]?
      = some (f query.1) := by
  have hkeep : ∀ (queries : List (α × ℕ)) (output : List β) (i : ℕ),
      i ∉ queries.map Prod.snd →
      (queries.foldl (fun output query => output.set query.2 (f query.1)) output)[i]?
        = output[i]? := by
    intro queries
    induction queries with
    | nil => exact fun _ _ _ => rfl
    | cons query queries ih =>
      intro output i hi
      rw [List.map_cons, List.mem_cons, not_or] at hi
      rw [List.foldl_cons, ih _ _ hi.2, List.getElem?_set_ne (Ne.symm hi.1)]
  induction queries generalizing output with
  | nil => cases hquery
  | cons first queries ih =>
    rw [List.map_cons, List.nodup_cons] at hdistinct
    rw [List.foldl_cons]
    rcases List.mem_cons.mp hquery with rfl | hquery
    · rw [hkeep _ _ _ hdistinct.1, List.getElem?_set_self hindex]
    · exact ih hdistinct.2 hquery _ (by rwa [List.length_set])

/-! ## Selection -/

/-- One step of a selection. -/
lemma select_node {key : K} {value : V} {weight sum : Measure} {height : ℕ} {left right : Tree K V}
    (hleft : left.Sound) (offset : UInt64) (axis : Axis) {n : ℕ × ℕ}
    (hfits : Measure.Fits (n + weigh left.entries + weight.counts)) :
    (node key value weight sum height left right).select offset axis (Measure.cap n)
      = if offset.toNat < axis.of (n + weigh left.entries) then
          left.select offset axis (Measure.cap n)
        else if offset.toNat < axis.of (n + weigh left.entries + weight.counts) then
          some (key, value, Measure.cap (n + weigh left.entries))
        else right.select offset axis (Measure.cap (n + weigh left.entries + weight.counts)) := by
  have hcarry := carry_eq_cap hleft n weight
  rw [hleft.measure_eq_cap, Measure.cap_plus] at hcarry
  rw [select]
  simp only [hleft.measure_eq_cap, Measure.cap_plus, hcarry, lt_along_cap hfits.left,
    lt_along_cap hfits]

/-- An offset at or past the total selects nothing. -/
lemma select_eq_none {tree : Tree K V} (hsound : tree.Sound) (offset : UInt64) (axis : Axis)
    {n : ℕ × ℕ} (hfits : Measure.Fits (n + weigh tree.entries))
    (hpast : axis.of (n + weigh tree.entries) ≤ offset.toNat) :
    tree.select offset axis (Measure.cap n) = .none := by
  induction tree generalizing n with
  | none => rfl
  | node key value weight sum height left right ihl ihr =>
    obtain ⟨-, -, -, -, hleft, hright⟩ := hsound
    rw [entries, weigh_append, weigh_cons] at hfits hpast
    simp only [← add_assoc] at hfits hpast
    rw [select_node hleft offset axis hfits.left]
    simp only [Axis.of_add] at hpast ⊢
    rw [if_neg (by omega), if_neg (by omega)]
    exact ihr hright hfits (by simp only [Axis.of_add]; omega)

/-- An offset inside a block selects it, with the weight of the blocks before it. -/
lemma select_eq_some {tree : Tree K V} (hsound : tree.Sound) (offset : UInt64) (axis : Axis)
    {n : ℕ × ℕ} (hfits : Measure.Fits (n + weigh tree.entries)) {xs ys : List (Block K V)}
    {block : Block K V} (hblocks : tree.entries = xs ++ block :: ys)
    (hlow : axis.of (n + weigh xs) ≤ offset.toNat)
    (hhigh : offset.toNat < axis.of (n + weigh xs + block.2.2.counts)) :
    tree.select offset axis (Measure.cap n)
      = some (block.1, block.2.1, Measure.cap (n + weigh xs)) := by
  induction tree generalizing n xs ys with
  | none =>
    rw [entries] at hblocks
    cases xs <;> cases hblocks
  | node key value weight sum height left right ihl ihr =>
    obtain ⟨-, -, -, -, hleft, hright⟩ := hsound
    rw [entries, weigh_append, weigh_cons] at hfits
    simp only [← add_assoc] at hfits
    rw [entries] at hblocks
    rw [select_node hleft offset axis hfits.left]
    -- the block lies in the left child, at the root or in the right child
    rcases List.append_eq_append_iff.mp hblocks with ⟨zs, rfl, hzs⟩ | ⟨zs, hzs, hrest⟩
    · cases zs with
      | nil =>
        rw [List.nil_append, List.cons.injEq] at hzs
        obtain ⟨rfl, rfl⟩ := hzs
        rw [List.append_nil] at hlow hhigh ⊢
        rw [if_neg (by omega), if_pos hhigh]
      | cons z zs =>
        rw [List.cons_append, List.cons.injEq] at hzs
        obtain ⟨rfl, hzs⟩ := hzs
        have hsum : n + weigh (left.entries ++ (key, value, weight) :: zs)
            = n + weigh left.entries + weight.counts + weigh zs := by
          rw [weigh_append, weigh_cons]
          simp only [add_assoc]
        rw [hsum] at hlow hhigh ⊢
        simp only [Axis.of_add] at hlow ⊢
        rw [if_neg (by omega), if_neg (by omega)]
        exact ihr hright hfits hzs (by simp only [Axis.of_add]; omega) hhigh
    · cases zs with
      | nil =>
        rw [List.nil_append, List.cons.injEq] at hrest
        obtain ⟨rfl, rfl⟩ := hrest
        rw [List.append_nil] at hzs
        subst hzs
        rw [if_neg (by omega), if_pos hhigh]
      | cons z zs =>
        rw [List.cons_append, List.cons.injEq] at hrest
        obtain ⟨rfl, rfl⟩ := hrest
        have hinside : offset.toNat < axis.of (n + weigh left.entries) := by
          rw [hzs, weigh_append, weigh_cons]
          simp only [Axis.of_add] at hhigh ⊢
          omega
        rw [if_pos hinside]
        exact ihl hleft hfits.left.left hzs hlow hhigh

end Tree

namespace RankTree

variable [LinearOrder K]

/-- Prefixes of a batch are those of its keys, in the supplied order. -/
lemma prefixes_eq (tree : RankTree K V) (sortUnstable : SortUnstable K) (keys : List K) :
    tree.prefixes sortUnstable keys = keys.map tree.before := by
  have hperm := sortUnstable.perm keys.zipIdx
  have hlength : (tree.prefixes sortUnstable keys).length = keys.length := by
    have hset : ∀ (queries : List (K × ℕ)) (output : List Measure),
        (queries.foldl (fun output query =>
          output.set query.2 (tree.root.before query.1 {})) output).length = output.length := by
      intro queries
      induction queries with
      | nil => exact fun _ => rfl
      | cons query queries ih =>
        intro output
        rw [List.foldl_cons, ih, List.length_set]
    unfold prefixes
    rw [Tree.prefixBatch_eq _ (sortUnstable.sorted _), hset, List.length_replicate]
  have hdistinct : ((sortUnstable.sort keys.zipIdx).map Prod.snd).Nodup := by
    rw [(hperm.map Prod.snd).nodup_iff, List.zipIdx_map_snd]
    exact List.nodup_range'
  apply List.ext_getElem?
  intro i
  by_cases hi : i < keys.length
  · have hquery : (keys[i], i) ∈ sortUnstable.sort keys.zipIdx := by
      rw [hperm.mem_iff, List.mk_mem_zipIdx_iff_getElem?]
      exact List.getElem?_eq_getElem hi
    unfold prefixes
    rw [Tree.prefixBatch_eq _ (sortUnstable.sorted _),
      Tree.getElem?_foldl_set (fun key => tree.root.before key {}) hdistinct hquery _
        (by simpa using hi), List.getElem?_map, List.getElem?_eq_getElem hi]
    rfl
  · rw [List.getElem?_eq_none (by omega), List.getElem?_eq_none (by simpa using hi)]

section Sums

variable {tree : RankTree K V}

lemma rank_counts (hsound : tree.root.Sound) (hordered : tree.root.Ordered)
    (hfits : Measure.Fits (weigh tree.root.entries)) (key : K) :
    (tree.rank key).map Measure.counts
      = if key ∈ tree.root.entries.map Prod.fst then
          some (weigh (Tree.smaller key tree.root.entries))
        else none := by
  have hcap := Tree.rank_eq_cap key hsound hordered 0
  rw [Measure.cap_zero, zero_add] at hcap
  show (tree.root.rank key {}).map Measure.counts = _
  rw [hcap]
  split
  · rw [Option.map_some, Measure.counts_cap (fits_of_sublist (Tree.smaller_sublist _ _) hfits)]
  · rfl

lemma before_counts (hsound : tree.root.Sound) (hordered : tree.root.Ordered)
    (hfits : Measure.Fits (weigh tree.root.entries)) (key : K) :
    (tree.before key).counts = weigh (Tree.smaller key tree.root.entries) := by
  have hcap := Tree.before_eq_cap key hsound hordered 0
  rw [Measure.cap_zero, zero_add] at hcap
  show (tree.root.before key {}).counts = _
  rw [hcap, Measure.counts_cap (fits_of_sublist (Tree.smaller_sublist _ _) hfits)]

omit [LinearOrder K] in
/-- What is selected inside a block. -/
lemma select_of_split (hsound : tree.root.Sound) (hfits : Measure.Fits (weigh tree.root.entries))
    {offset : UInt64} {axis : Axis} {xs ys : List (Block K V)} {block : Block K V}
    (hblocks : tree.root.entries = xs ++ block :: ys) (hlow : axis.of (weigh xs) ≤ offset.toNat)
    (hhigh : offset.toNat < axis.of (weigh xs + block.2.2.counts)) :
    tree.select offset axis = some (block.1, block.2.1, Measure.cap (weigh xs)) := by
  have hselect := Tree.select_eq_some hsound offset axis (n := 0) (by rwa [zero_add]) hblocks
    (by rwa [zero_add]) (by rwa [zero_add])
  rwa [Measure.cap_zero, zero_add] at hselect

omit [LinearOrder K] in
lemma select_eq_none_iff (hsound : tree.root.Sound)
    (hfits : Measure.Fits (weigh tree.root.entries)) (offset : UInt64) (axis : Axis) :
    tree.select offset axis = none ↔ axis.of (weigh tree.root.entries) ≤ offset.toNat := by
  constructor
  · intro hnone
    by_contra hinside
    obtain ⟨xs, block, ys, hblocks, hlow, hhigh⟩ :=
      exists_block axis offset.toNat tree.root.entries 0
        (by cases axis <;> exact Nat.zero_le _) (by rw [zero_add]; omega)
    rw [zero_add] at hlow hhigh
    rw [select_of_split hsound hfits hblocks hlow hhigh] at hnone
    cases hnone
  · intro hpast
    have hselect := Tree.select_eq_none hsound offset axis (n := 0) (by rwa [zero_add])
      (by rwa [zero_add])
    rwa [Measure.cap_zero] at hselect

lemma select_eq_some_iff (hsound : tree.root.Sound) (hordered : tree.root.Ordered)
    (hfits : Measure.Fits (weigh tree.root.entries)) (offset : UInt64) (axis : Axis) (key : K)
    (value : V) (start : Measure) :
    tree.select offset axis = some (key, value, start)
      ↔ ∃ weight, (key, value, weight) ∈ tree.root.entries
        ∧ start.counts = weigh (Tree.smaller key tree.root.entries)
        ∧ axis.of start.counts ≤ offset.toNat
        ∧ offset.toNat < axis.of (start.counts + weight.counts) := by
  constructor
  · intro hsome
    have hinside : ¬ axis.of (weigh tree.root.entries) ≤ offset.toNat := by
      rw [← select_eq_none_iff hsound hfits, hsome]
      exact Option.some_ne_none _
    obtain ⟨xs, block, ys, hblocks, hlow, hhigh⟩ :=
      exists_block axis offset.toNat tree.root.entries 0
        (by cases axis <;> exact Nat.zero_le _) (by rw [zero_add]; omega)
    rw [zero_add] at hlow hhigh
    rw [select_of_split hsound hfits hblocks hlow hhigh] at hsome
    cases hsome
    have hxs : Measure.Fits (weigh xs) := by
      rw [hblocks] at hfits
      exact fits_of_sublist (List.sublist_append_left _ _) hfits
    rw [Tree.smaller_of_split hordered hblocks, Measure.counts_cap hxs, hblocks]
    exact ⟨block.2.2, List.mem_append_right _ List.mem_cons_self, rfl, hlow, hhigh⟩
  · rintro ⟨weight, hmem, hstart, hlow, hhigh⟩
    obtain ⟨xs, ys, hblocks⟩ := List.append_of_mem hmem
    rw [Tree.smaller_of_split hordered hblocks] at hstart
    rw [hstart] at hlow hhigh
    rw [select_of_split hsound hfits hblocks hlow hhigh, ← hstart, Measure.cap_counts]

end Sums

/-- Rank and select are exact inverses. After any edits of the empty tree, as long as its weights
fit, `measure` is the sum of all weights, `prefix` and `rank` are the sum over the smaller keys,
`prefixes` is `prefix` of each key, and `select` returns the one block at which an offset lies, if
there is one. -/
theorem rank_select_inverse (edits : List (Edit K V)) (sortUnstable : SortUnstable K)
    (hfits : Measure.Fits (weigh (Edit.referenceRun ∅ edits).1.toList)) :
    (∀ key, ((RankTree.run {} edits).1.rank key).map Measure.counts
      = if key ∈ (Edit.referenceRun ∅ edits).1.toList.map Prod.fst then
          some (weigh (Tree.smaller key (Edit.referenceRun ∅ edits).1.toList))
        else none)
      ∧ (∀ key, ((RankTree.run {} edits).1.before key).counts
        = weigh (Tree.smaller key (Edit.referenceRun ∅ edits).1.toList))
      ∧ (∀ keys, (RankTree.run {} edits).1.prefixes sortUnstable keys
        = keys.map (RankTree.run {} edits).1.before)
      ∧ (RankTree.run {} edits).1.measure.counts = weigh (Edit.referenceRun ∅ edits).1.toList
      ∧ (∀ offset axis key value start,
        (RankTree.run {} edits).1.select offset axis = some (key, value, start)
          ↔ ∃ weight, (key, value, weight) ∈ (Edit.referenceRun ∅ edits).1.toList
            ∧ start.counts = weigh (Tree.smaller key (Edit.referenceRun ∅ edits).1.toList)
            ∧ axis.of start.counts ≤ offset.toNat
            ∧ offset.toNat < axis.of (start.counts + weight.counts))
      ∧ ∀ offset axis, (RankTree.run {} edits).1.select offset axis = none
        ↔ axis.of (weigh (Edit.referenceRun ∅ edits).1.toList) ≤ offset.toNat := by
  have hmirrors := (mirrors_empty.run edits).1
  have hsound := hmirrors.sound
  have hordered := hmirrors.ordered
  rw [← hmirrors.entries_eq] at hfits ⊢
  refine ⟨rank_counts hsound hordered hfits, before_counts hsound hordered hfits,
    prefixes_eq _ sortUnstable, ?_, select_eq_some_iff hsound hordered hfits,
    select_eq_none_iff hsound hfits⟩
  show (RankTree.run {} edits).1.root.measure.counts = _
  rw [hsound.measure_eq_cap, Measure.counts_cap hfits]

end RankTree

/-! ## Three blocks, one of them removed -/

/-- A merge sort is a sort. -/
def SortUnstable.merge : SortUnstable ℕ where
  sort queries := queries.mergeSort fun a b => a.1 ≤ b.1
  perm queries := List.mergeSort_perm queries _
  sorted queries := by
    have htrans : ∀ a b c : ℕ × ℕ, decide (a.1 ≤ b.1) → decide (b.1 ≤ c.1) →
        decide (a.1 ≤ c.1) := by
      simp only [decide_eq_true_eq]
      omega
    have htotal : ∀ a b : ℕ × ℕ, (decide (a.1 ≤ b.1) || decide (b.1 ≤ a.1)) := by
      simp only [Bool.or_eq_true, decide_eq_true_eq]
      omega
    refine (List.pairwise_mergeSort htrans htotal queries).imp ?_
    simp

/-- The last block has no expanded rows. -/
def threeBlocks : List (Edit ℕ Unit) :=
  [.insert 5 () ⟨1, 0⟩, .insert 2 () ⟨3, 1⟩, .insert 9 () ⟨0, 2⟩, .remove 5]

theorem RankTree.rank_select_threeBlocks :
    Measure.Fits (weigh (Edit.referenceRun ∅ threeBlocks).1.toList)
      ∧ (∀ key, ((RankTree.run {} threeBlocks).1.before key).counts
        = weigh (Tree.smaller key (Edit.referenceRun ∅ threeBlocks).1.toList))
      ∧ ∀ keys, (RankTree.run {} threeBlocks).1.prefixes SortUnstable.merge keys
        = keys.map (RankTree.run {} threeBlocks).1.before := by
  have hfits : Measure.Fits (weigh (Edit.referenceRun ∅ threeBlocks).1.toList) := by
    rw [← (RankTree.mirrors_empty.run threeBlocks).1.entries_eq]
    exact ⟨by decide, by decide⟩
  obtain ⟨-, hbefore, hprefixes, -⟩ :=
    RankTree.rank_select_inverse threeBlocks SortUnstable.merge hfits
  exact ⟨hfits, hbefore, hprefixes⟩

end EditChain.IndexPages
