import EditChain.IndexPages.RankTree
import Mathlib.Tactic.Common

/-!
# Rank trees are balanced sorted maps

Rotations keep the blocks in order, and `balance` repairs a node whose children differ in height by
at most two. So every edit keeps the tree sorted, balanced and its stored heights and sums exact,
and does to the blocks what it does to a sorted map.
-/

namespace EditChain.IndexPages

open Std (ExtTreeMap)

variable {K V : Type}

lemma saturatingAdd_zero (a : UInt64) : saturatingAdd a 0 = a := by
  have hlt := a.toNat_lt
  unfold saturatingAdd
  rw [UInt64.toNat_zero, Nat.add_zero, Nat.min_eq_left (by omega), UInt64.ofNat_toNat]

lemma saturatingAdd_comm (a b : UInt64) : saturatingAdd a b = saturatingAdd b a := by
  unfold saturatingAdd
  rw [Nat.add_comm]

lemma Measure.plus_zero (a : Measure) : a.plus {} = a := by
  ext <;> simp only [Measure.plus, saturatingAdd_zero]

lemma Measure.zero_plus (a : Measure) : Measure.plus {} a = a := by
  ext <;> simp only [Measure.plus, saturatingAdd_comm 0, saturatingAdd_zero]

namespace Tree

/-! ## What a tree holds -/

/-- The blocks, in order traversal. -/
def entries : Tree K V → List (Block K V)
  | none => []
  | node key value weight _ _ left right => left.entries ++ (key, value, weight) :: right.entries

/-- The height, recomputed. -/
def depth : Tree K V → ℕ
  | none => 0
  | node _ _ _ _ _ left right => max left.depth right.depth + 1

/-- The sum, recomputed. -/
def total : Tree K V → Measure
  | none => {}
  | node _ _ weight _ _ left right => (left.total.plus weight).plus right.total

/-- At every node, sibling heights differ by at most one, and height and sum are as stored. -/
def Sound : Tree K V → Prop
  | none => True
  | node key value weight sum height left right =>
    left.depth ≤ right.depth + 1 ∧ right.depth ≤ left.depth + 1
      ∧ height = (node key value weight sum height left right).depth
      ∧ sum = (node key value weight sum height left right).total ∧ left.Sound ∧ right.Sound

/-- Keys are strictly ordered. -/
def Ordered [LinearOrder K] (tree : Tree K V) : Prop :=
  tree.entries.Pairwise fun a b => a.1 < b.1

lemma Sound.height_eq {tree : Tree K V} (h : tree.Sound) : tree.height = tree.depth := by
  cases tree with
  | none => rfl
  | node => exact h.2.2.1

lemma Sound.measure_eq {tree : Tree K V} (h : tree.Sound) : tree.measure = tree.total := by
  cases tree with
  | none => rfl
  | node => exact h.2.2.2.1

/-! ## Rotations -/

@[simp] lemma entries_fix (tree : Tree K V) : tree.fix.entries = tree.entries := by
  cases tree <;> rfl

@[simp] lemma entries_rotateLeft (tree : Tree K V) : tree.rotateLeft.entries = tree.entries := by
  unfold rotateLeft
  split
  · simp [entries, fix]
  · rfl

@[simp] lemma entries_rotateRight (tree : Tree K V) : tree.rotateRight.entries = tree.entries := by
  unfold rotateRight
  split
  · simp [entries, fix]
  · rfl

@[simp] lemma entries_leanLeft (tree : Tree K V) : tree.leanLeft.entries = tree.entries := by
  unfold leanLeft
  split
  · split
    · exact entries_rotateLeft _
    · rfl
  · rfl

@[simp] lemma entries_leanRight (tree : Tree K V) : tree.leanRight.entries = tree.entries := by
  unfold leanRight
  split
  · split
    · exact entries_rotateRight _
    · rfl
  · rfl

/-- Balancing keeps the blocks. -/
@[simp] lemma entries_balance (tree : Tree K V) : tree.balance.entries = tree.entries := by
  rw [← entries_fix tree]
  unfold balance
  split
  · next hfix =>
    rw [hfix]
    split
    · simp [entries]
    · split
      · simp [entries]
      · rfl
  · next hfix => rw [hfix]

/-- A node with sound children of nearly the same height is sound once it is fixed. -/
lemma sound_fix {key : K} {value : V} {weight sum : Measure} {height : ℕ} {left right : Tree K V}
    (hleft : left.Sound) (hright : right.Sound) (hl : left.depth ≤ right.depth + 1)
    (hr : right.depth ≤ left.depth + 1) :
    (fix (node key value weight sum height left right)).Sound := by
  refine ⟨hl, hr, ?_, ?_, hleft, hright⟩
  · rw [hleft.height_eq, hright.height_eq]
    rfl
  · rw [hleft.measure_eq, hright.measure_eq]
    rfl

@[simp] lemma depth_fix (tree : Tree K V) : tree.fix.depth = tree.depth := by
  cases tree <;> rfl

lemma depth_node (key : K) (value : V) (weight sum : Measure) (height : ℕ) (left right : Tree K V) :
    (node key value weight sum height left right).depth = max left.depth right.depth + 1 := rfl

/-- The height of a repaired node, whose children had heights `a` and `b`. -/
def Repaired (a b : ℕ) (tree : Tree K V) : Prop :=
  tree.Sound ∧ max a b ≤ tree.depth ∧ tree.depth ≤ max a b + 1
    ∧ (a ≤ b + 1 → b ≤ a + 1 → tree.depth = max a b + 1)

/-- A tree that leans to the left by two is repaired by a rotation to the right. -/
lemma repaired_rotateRight {key : K} {value : V} {weight sum : Measure} {height : ℕ}
    {left right : Tree K V} (hleft : left.Sound) (hright : right.Sound)
    (hlean : left.depth = right.depth + 2) :
    Repaired left.depth right.depth
      (rotateRight (node key value weight sum height left.leanLeft right)) := by
  cases left with
  | none => simp [depth] at hlean
  | node key' value' weight' sum' height' left' right' =>
    obtain ⟨hl, hr, -, -, hleft', hright'⟩ := hleft
    rw [depth_node] at hlean ⊢
    simp only [leanLeft, hleft'.height_eq, hright'.height_eq]
    by_cases hinner : left'.depth < right'.depth
    · -- the inner grandchild becomes the root
      rw [if_pos hinner]
      cases right' with
      | none => simp [depth] at hinner
      | node key'' value'' weight'' sum'' height'' left'' right'' =>
        obtain ⟨hl'', hr'', -, -, hleft'', hright''⟩ := hright'
        rw [depth_node] at hl hr hlean hinner ⊢
        have houter : (fix (node key' value' weight' sum' height' left' left'')).Sound :=
          sound_fix hleft' hleft'' (by omega) (by omega)
        have hinner' : (fix (node key value weight sum height right'' right)).Sound :=
          sound_fix hright'' hright (by omega) (by omega)
        show Repaired _ _ (fix (node key'' value'' weight'' sum'' height''
          (fix (node key' value' weight' sum' height' left' left''))
          (fix (node key value weight sum height right'' right))))
        refine ⟨sound_fix houter hinner' ?_ ?_, ?_, ?_, ?_⟩ <;>
          simp only [depth_fix, depth_node] <;> omega
    · -- the child becomes the root
      rw [if_neg hinner]
      have hinner' : (fix (node key value weight sum height right' right)).Sound :=
        sound_fix hright' hright (by omega) (by omega)
      show Repaired _ _ (fix (node key' value' weight' sum' height' left'
        (fix (node key value weight sum height right' right))))
      refine ⟨sound_fix hleft' hinner' ?_ ?_, ?_, ?_, ?_⟩ <;>
        simp only [depth_fix, depth_node] <;> omega

/-- A tree that leans to the right by two is repaired by a rotation to the left. -/
lemma repaired_rotateLeft {key : K} {value : V} {weight sum : Measure} {height : ℕ}
    {left right : Tree K V} (hleft : left.Sound) (hright : right.Sound)
    (hlean : right.depth = left.depth + 2) :
    Repaired left.depth right.depth
      (rotateLeft (node key value weight sum height left right.leanRight)) := by
  cases right with
  | none => simp [depth] at hlean
  | node key' value' weight' sum' height' left' right' =>
    obtain ⟨hl, hr, -, -, hleft', hright'⟩ := hright
    rw [depth_node] at hlean ⊢
    simp only [leanRight, hleft'.height_eq, hright'.height_eq]
    by_cases hinner : right'.depth < left'.depth
    · rw [if_pos hinner]
      cases left' with
      | none => simp [depth] at hinner
      | node key'' value'' weight'' sum'' height'' left'' right'' =>
        obtain ⟨hl'', hr'', -, -, hleft'', hright''⟩ := hleft'
        rw [depth_node] at hl hr hlean hinner ⊢
        have houter : (fix (node key' value' weight' sum' height' right'' right')).Sound :=
          sound_fix hright'' hright' (by omega) (by omega)
        have hinner' : (fix (node key value weight sum height left left'')).Sound :=
          sound_fix hleft hleft'' (by omega) (by omega)
        show Repaired _ _ (fix (node key'' value'' weight'' sum'' height''
          (fix (node key value weight sum height left left''))
          (fix (node key' value' weight' sum' height' right'' right'))))
        refine ⟨sound_fix hinner' houter ?_ ?_, ?_, ?_, ?_⟩ <;>
          simp only [depth_fix, depth_node] <;> omega
    · rw [if_neg hinner]
      have hinner' : (fix (node key value weight sum height left left')).Sound :=
        sound_fix hleft hleft' (by omega) (by omega)
      show Repaired _ _ (fix (node key' value' weight' sum' height'
        (fix (node key value weight sum height left left')) right'))
      refine ⟨sound_fix hinner' hright' ?_ ?_, ?_, ?_, ?_⟩ <;>
        simp only [depth_fix, depth_node] <;> omega

/-- `balance` repairs a node whose children differ in height by at most two. -/
lemma repaired_balance (key : K) (value : V) (weight sum : Measure) (height : ℕ)
    {left right : Tree K V} (hleft : left.Sound) (hright : right.Sound)
    (hl : left.depth ≤ right.depth + 2) (hr : right.depth ≤ left.depth + 2) :
    Repaired left.depth right.depth (balance (node key value weight sum height left right)) := by
  simp only [balance, fix, hleft.height_eq, hright.height_eq]
  by_cases hlean : right.depth + 1 < left.depth
  · rw [if_pos hlean]
    exact repaired_rotateRight hleft hright (by omega)
  · rw [if_neg hlean]
    by_cases hlean' : left.depth + 1 < right.depth
    · rw [if_pos hlean']
      exact repaired_rotateLeft hleft hright (by omega)
    · rw [if_neg hlean']
      refine ⟨⟨by omega, by omega, rfl, ?_, hleft, hright⟩, ?_, ?_, fun _ _ => rfl⟩
      · rw [hleft.measure_eq, hright.measure_eq]
        rfl
      · rw [depth_node]
        omega
      · exact Nat.le_refl _

/-! ## Order -/

lemma mem_entries_node {key : K} {value : V} {weight sum : Measure} {height : ℕ}
    {left right : Tree K V} {b : Block K V} :
    b ∈ (node key value weight sum height left right).entries
      ↔ b ∈ left.entries ∨ b = (key, value, weight) ∨ b ∈ right.entries := by
  rw [entries, List.mem_append, List.mem_cons]

section Order

variable [LinearOrder K]

lemma ordered_node {key : K} {value : V} {weight sum : Measure} {height : ℕ}
    {left right : Tree K V} :
    (node key value weight sum height left right).Ordered
      ↔ left.Ordered ∧ right.Ordered ∧ (∀ b ∈ left.entries, b.1 < key)
        ∧ ∀ b ∈ right.entries, key < b.1 := by
  unfold Ordered
  rw [entries, List.pairwise_append, List.pairwise_cons]
  constructor
  · rintro ⟨hleft, ⟨hright, hright'⟩, hboth⟩
    exact ⟨hleft, hright', fun b hb => hboth b hb _ List.mem_cons_self, hright⟩
  · rintro ⟨hleft, hright', hless, hright⟩
    refine ⟨hleft, ⟨hright, hright'⟩, fun a ha b hb => ?_⟩
    rcases List.mem_cons.mp hb with rfl | hb
    · exact hless a ha
    · exact (hless a ha).trans (hright b hb)

lemma ordered_balance {tree : Tree K V} : tree.balance.Ordered ↔ tree.Ordered := by
  unfold Ordered
  rw [entries_balance]

/-! ## Insertion -/

section Cases

variable {key key' : K} {value value' : V} {weight weight' sum : Measure} {height : ℕ}
  {left right : Tree K V}

lemma insert_of_lt (h : key < key') :
    (node key' value' weight' sum height left right).insert key value weight
      = (balance (node key' value' weight' sum height (left.insert key value weight).1 right),
        (left.insert key value weight).2) := by
  rw [insert, compare_lt_iff_lt.mpr h]

lemma insert_of_gt (h : key' < key) :
    (node key' value' weight' sum height left right).insert key value weight
      = (balance (node key' value' weight' sum height left (right.insert key value weight).1),
        (right.insert key value weight).2) := by
  rw [insert, compare_gt_iff_gt.mpr h]

lemma insert_of_eq :
    (node key value' weight' sum height left right).insert key value weight
      = (balance (node key value weight sum height left right), some value') := by
  rw [insert, compare_eq_iff_eq.mpr rfl]

lemma remove_of_lt (h : key < key') :
    (node key' value weight sum height left right).remove key
      = (balance (node key' value weight sum height (left.remove key).1 right),
        (left.remove key).2) := by
  simp only [remove, compare_lt_iff_lt.mpr h]

lemma remove_of_gt (h : key' < key) :
    (node key' value weight sum height left right).remove key
      = (balance (node key' value weight sum height left (right.remove key).1),
        (right.remove key).2) := by
  simp only [remove, compare_gt_iff_gt.mpr h]

end Cases

/-- Inserting keeps the tree sound, and it grows by at most one level. -/
lemma sound_insert (key : K) (value : V) (weight : Measure) {tree : Tree K V} (h : tree.Sound) :
    (tree.insert key value weight).1.Sound
      ∧ tree.depth ≤ (tree.insert key value weight).1.depth
      ∧ (tree.insert key value weight).1.depth ≤ tree.depth + 1 := by
  induction tree with
  | none =>
    refine ⟨⟨Nat.zero_le _, Nat.zero_le _, rfl, ?_, trivial, trivial⟩, Nat.zero_le _, Nat.le_refl _⟩
    show weight = (Measure.plus {} weight).plus {}
    rw [Measure.zero_plus, Measure.plus_zero]
  | node key' value' weight' sum height left right ihl ihr =>
    obtain ⟨hl, hr, -, -, hleft, hright⟩ := h
    rw [depth_node]
    rcases lt_trichotomy key key' with hlt | rfl | hgt
    · obtain ⟨hsound, hlow, hhigh⟩ := ihl hleft
      rw [insert_of_lt hlt]
      obtain ⟨hrepaired, hmin, hmax, hlevel⟩ :=
        repaired_balance key' value' weight' sum height hsound hright (by omega) (by omega)
      exact ⟨hrepaired, by dsimp only; omega, by dsimp only; omega⟩
    · rw [insert_of_eq]
      obtain ⟨hrepaired, hmin, hmax, hlevel⟩ :=
        repaired_balance key value weight sum height hleft hright (by omega) (by omega)
      exact ⟨hrepaired, by dsimp only; omega, by dsimp only; omega⟩
    · obtain ⟨hsound, hlow, hhigh⟩ := ihr hright
      rw [insert_of_gt hgt]
      obtain ⟨hrepaired, hmin, hmax, hlevel⟩ :=
        repaired_balance key' value' weight' sum height hleft hsound (by omega) (by omega)
      exact ⟨hrepaired, by dsimp only; omega, by dsimp only; omega⟩

/-- What is inserted, next to the blocks with other keys. -/
lemma mem_entries_insert (key : K) (value : V) (weight : Measure) {tree : Tree K V}
    (h : tree.Ordered) (b : Block K V) :
    b ∈ (tree.insert key value weight).1.entries
      ↔ b = (key, value, weight) ∨ (b ∈ tree.entries ∧ b.1 ≠ key) := by
  induction tree with
  | none => simp [insert, entries]
  | node key' value' weight' sum height left right ihl ihr =>
    obtain ⟨hleft, hright, hless, hmore⟩ := ordered_node.1 h
    rcases lt_trichotomy key key' with hlt | rfl | hgt
    · rw [insert_of_lt hlt, entries_balance, mem_entries_node, ihl hleft, mem_entries_node]
      have hother : b = (key', value', weight') ∨ b ∈ right.entries → b.1 ≠ key := by
        rintro (rfl | hb)
        · exact hlt.ne'
        · exact (hlt.trans (hmore b hb)).ne'
      grind
    · rw [insert_of_eq, entries_balance, mem_entries_node, mem_entries_node]
      constructor
      · rintro (hb | hb | hb)
        · exact .inr ⟨.inl hb, (hless b hb).ne⟩
        · exact .inl hb
        · exact .inr ⟨.inr (.inr hb), (hmore b hb).ne'⟩
      · rintro (hb | ⟨hb | rfl | hb, hkey⟩)
        · exact .inr (.inl hb)
        · exact .inl hb
        · exact absurd rfl hkey
        · exact .inr (.inr hb)
    · rw [insert_of_gt hgt, entries_balance, mem_entries_node, ihr hright, mem_entries_node]
      have hother : b ∈ left.entries ∨ b = (key', value', weight') → b.1 ≠ key := by
        rintro (hb | rfl)
        · exact ((hless b hb).trans hgt).ne
        · exact hgt.ne
      grind

lemma ordered_insert (key : K) (value : V) (weight : Measure) {tree : Tree K V}
    (h : tree.Ordered) : (tree.insert key value weight).1.Ordered := by
  induction tree with
  | none => exact List.pairwise_singleton _ _
  | node key' value' weight' sum height left right ihl ihr =>
    obtain ⟨hleft, hright, hless, hmore⟩ := ordered_node.1 h
    rcases lt_trichotomy key key' with hlt | rfl | hgt
    · rw [insert_of_lt hlt, ordered_balance, ordered_node]
      refine ⟨ihl hleft, hright, fun b hb => ?_, hmore⟩
      rcases (mem_entries_insert key value weight hleft b).mp hb with rfl | ⟨hb, -⟩
      · exact hlt
      · exact hless b hb
    · rw [insert_of_eq, ordered_balance, ordered_node]
      exact ⟨hleft, hright, hless, hmore⟩
    · rw [insert_of_gt hgt, ordered_balance, ordered_node]
      refine ⟨hleft, ihr hright, hless, fun b hb => ?_⟩
      rcases (mem_entries_insert key value weight hright b).mp hb with rfl | ⟨hb, -⟩
      · exact hgt
      · exact hmore b hb

omit [LinearOrder K] in
/-- The value of a key, found in one of three places. -/
lemma exists_mem_entries_node {key key' : K} {value value' : V} {weight' sum : Measure} {height : ℕ}
    {left right : Tree K V} :
    (∃ weight, (key, value, weight) ∈ (node key' value' weight' sum height left right).entries)
      ↔ (∃ weight, (key, value, weight) ∈ left.entries) ∨ (key = key' ∧ value = value')
        ∨ ∃ weight, (key, value, weight) ∈ right.entries := by
  simp only [mem_entries_node, Prod.mk.injEq, exists_or, exists_and_left]
  simp

/-- Inserting returns the value that was replaced. -/
lemma insert_previous (key : K) (value old : V) (weight : Measure) {tree : Tree K V}
    (h : tree.Ordered) :
    (tree.insert key value weight).2 = some old
      ↔ ∃ weight', (key, old, weight') ∈ tree.entries := by
  induction tree with
  | none => simp [insert, entries]
  | node key' value' weight' sum height left right ihl ihr =>
    obtain ⟨hleft, hright, hless, hmore⟩ := ordered_node.1 h
    rw [exists_mem_entries_node]
    rcases lt_trichotomy key key' with hlt | rfl | hgt
    · rw [insert_of_lt hlt, ihl hleft]
      have hother : ¬ ∃ weight, (key, old, weight) ∈ right.entries :=
        fun ⟨_, hb⟩ => lt_asymm hlt (hmore _ hb)
      simp [hlt.ne, hother]
    · rw [insert_of_eq]
      have hl : ¬ ∃ weight, (key, old, weight) ∈ left.entries :=
        fun ⟨_, hb⟩ => lt_irrefl _ (hless _ hb)
      have hr : ¬ ∃ weight, (key, old, weight) ∈ right.entries :=
        fun ⟨_, hb⟩ => lt_irrefl _ (hmore _ hb)
      simp [hl, hr, eq_comm]
    · rw [insert_of_gt hgt, ihr hright]
      have hother : ¬ ∃ weight, (key, old, weight) ∈ left.entries :=
        fun ⟨_, hb⟩ => lt_asymm hgt (hless _ hb)
      simp [hgt.ne', hother]

/-! ## Removal -/

omit [LinearOrder K] in
/-- `pop_min` takes the first block. -/
lemma entries_popMin (key : K) (value : V) (weight sum : Measure) (height : ℕ)
    (left right : Tree K V) :
    (node key value weight sum height left right).entries
      = (popMin key value weight sum height left right).2
        :: (popMin key value weight sum height left right).1.entries := by
  induction left generalizing key value weight sum height right with
  | none => rfl
  | node key' value' weight' sum' height' left' right' ih _ =>
    rw [entries, ih key' value' weight' sum' height' right']
    simp only [popMin, entries_balance, entries, List.cons_append]

omit [LinearOrder K] in
/-- Taking the first block keeps the tree sound, and it shrinks by at most one level. -/
lemma sound_popMin (key : K) (value : V) (weight sum : Measure) (height : ℕ) {left right : Tree K V}
    (h : (node key value weight sum height left right).Sound) :
    (popMin key value weight sum height left right).1.Sound
      ∧ (popMin key value weight sum height left right).1.depth ≤ max left.depth right.depth + 1
      ∧ max left.depth right.depth
        ≤ (popMin key value weight sum height left right).1.depth := by
  induction left generalizing key value weight sum height right with
  | none =>
    obtain ⟨hl, hr, -, -, -, hright⟩ := h
    simp only [popMin, depth] at hl hr ⊢
    exact ⟨hright, by omega, by omega⟩
  | node key' value' weight' sum' height' left' right' ih _ =>
    obtain ⟨hl, hr, -, -, hleft, hright⟩ := h
    obtain ⟨hsound, hhigh, hlow⟩ := ih key' value' weight' sum' height' hleft
    rw [depth_node] at hl hr ⊢
    simp only [popMin]
    obtain ⟨hrepaired, hmin, hmax, hlevel⟩ :=
      repaired_balance key value weight sum height hsound hright (by omega) (by omega)
    exact ⟨hrepaired, by omega, by omega⟩

/-- Removing the root joins its children. -/
lemma remove_of_eq (key : K) (value : V) (weight sum : Measure) (height : ℕ) (left right : Tree K V) :
    ((node key value weight sum height left right).remove key).1.entries
        = left.entries ++ right.entries
      ∧ ((node key value weight sum height left right).remove key).2 = some value := by
  cases right with
  | none =>
    simp only [remove, compare_eq_iff_eq.mpr rfl]
    exact ⟨(List.append_nil _).symm, trivial⟩
  | node key₁ value₁ weight₁ sum₁ height₁ left₁ right₁ =>
    simp only [remove, compare_eq_iff_eq.mpr rfl, entries_balance]
    rw [entries_popMin key₁ value₁ weight₁ sum₁ height₁ left₁ right₁]
    exact ⟨rfl, trivial⟩

/-- Removing keeps the tree sound, and it shrinks by at most one level. -/
lemma sound_remove (key : K) {tree : Tree K V} (h : tree.Sound) :
    (tree.remove key).1.Sound ∧ (tree.remove key).1.depth ≤ tree.depth
      ∧ tree.depth ≤ (tree.remove key).1.depth + 1 := by
  induction tree with
  | none => exact ⟨trivial, Nat.le_refl _, Nat.le_succ _⟩
  | node key' value weight sum height left right ihl ihr =>
    obtain ⟨hl, hr, -, -, hleft, hright⟩ := h
    rw [depth_node]
    rcases lt_trichotomy key key' with hlt | rfl | hgt
    · obtain ⟨hsound, hhigh, hlow⟩ := ihl hleft
      rw [remove_of_lt hlt]
      obtain ⟨hrepaired, hmin, hmax, hlevel⟩ :=
        repaired_balance key' value weight sum height hsound hright (by omega) (by omega)
      exact ⟨hrepaired, by dsimp only; omega, by dsimp only; omega⟩
    · cases right with
      | none =>
        simp only [remove, compare_eq_iff_eq.mpr rfl, depth] at hl ⊢
        exact ⟨hleft, by omega, by omega⟩
      | node key₁ value₁ weight₁ sum₁ height₁ left₁ right₁ =>
        obtain ⟨hsound, hhigh, hlow⟩ := sound_popMin key₁ value₁ weight₁ sum₁ height₁ hright
        rw [depth_node] at hl hr ⊢
        simp only [remove, compare_eq_iff_eq.mpr rfl]
        obtain ⟨hrepaired, hmin, hmax, hlevel⟩ :=
          repaired_balance (popMin key₁ value₁ weight₁ sum₁ height₁ left₁ right₁).2.1
            (popMin key₁ value₁ weight₁ sum₁ height₁ left₁ right₁).2.2.1
            (popMin key₁ value₁ weight₁ sum₁ height₁ left₁ right₁).2.2.2 sum height hleft hsound
            (by omega) (by omega)
        exact ⟨hrepaired, by omega, by omega⟩
    · obtain ⟨hsound, hhigh, hlow⟩ := ihr hright
      rw [remove_of_gt hgt]
      obtain ⟨hrepaired, hmin, hmax, hlevel⟩ :=
        repaired_balance key' value weight sum height hleft hsound (by omega) (by omega)
      exact ⟨hrepaired, by dsimp only; omega, by dsimp only; omega⟩

/-- The blocks with other keys stay. -/
lemma mem_entries_remove (key : K) {tree : Tree K V} (h : tree.Ordered) (b : Block K V) :
    b ∈ (tree.remove key).1.entries ↔ b ∈ tree.entries ∧ b.1 ≠ key := by
  induction tree with
  | none => simp [remove, entries]
  | node key' value weight sum height left right ihl ihr =>
    obtain ⟨hleft, hright, hless, hmore⟩ := ordered_node.1 h
    rcases lt_trichotomy key key' with hlt | rfl | hgt
    · rw [remove_of_lt hlt, entries_balance, mem_entries_node, ihl hleft, mem_entries_node]
      have hother : b = (key', value, weight) ∨ b ∈ right.entries → b.1 ≠ key := by
        rintro (rfl | hb)
        · exact hlt.ne'
        · exact (hlt.trans (hmore b hb)).ne'
      grind
    · rw [(remove_of_eq _ _ _ _ _ _ _).1, List.mem_append, mem_entries_node]
      constructor
      · rintro (hb | hb)
        · exact ⟨.inl hb, (hless b hb).ne⟩
        · exact ⟨.inr (.inr hb), (hmore b hb).ne'⟩
      · rintro ⟨hb | rfl | hb, hkey⟩
        · exact .inl hb
        · exact absurd rfl hkey
        · exact .inr hb
    · rw [remove_of_gt hgt, entries_balance, mem_entries_node, ihr hright, mem_entries_node]
      have hother : b ∈ left.entries ∨ b = (key', value, weight) → b.1 ≠ key := by
        rintro (hb | rfl)
        · exact ((hless b hb).trans hgt).ne
        · exact hgt.ne
      grind

lemma ordered_remove (key : K) {tree : Tree K V} (h : tree.Ordered) :
    (tree.remove key).1.Ordered := by
  induction tree with
  | none => exact List.Pairwise.nil
  | node key' value weight sum height left right ihl ihr =>
    obtain ⟨hleft, hright, hless, hmore⟩ := ordered_node.1 h
    rcases lt_trichotomy key key' with hlt | rfl | hgt
    · rw [remove_of_lt hlt, ordered_balance, ordered_node]
      refine ⟨ihl hleft, hright, fun b hb => ?_, hmore⟩
      exact hless b ((mem_entries_remove key hleft b).mp hb).1
    · unfold Ordered
      rw [(remove_of_eq _ _ _ _ _ _ _).1]
      exact h.sublist ((List.Sublist.refl _).append (List.sublist_cons_self _ _))
    · rw [remove_of_gt hgt, ordered_balance, ordered_node]
      refine ⟨hleft, ihr hright, hless, fun b hb => ?_⟩
      exact hmore b ((mem_entries_remove key hright b).mp hb).1

/-- Removing returns the value that was removed. -/
lemma remove_previous (key : K) (old : V) {tree : Tree K V} (h : tree.Ordered) :
    (tree.remove key).2 = some old ↔ ∃ weight, (key, old, weight) ∈ tree.entries := by
  induction tree with
  | none => simp [remove, entries]
  | node key' value weight sum height left right ihl ihr =>
    obtain ⟨hleft, hright, hless, hmore⟩ := ordered_node.1 h
    rw [exists_mem_entries_node]
    rcases lt_trichotomy key key' with hlt | rfl | hgt
    · rw [remove_of_lt hlt, ihl hleft]
      have hother : ¬ ∃ weight, (key, old, weight) ∈ right.entries :=
        fun ⟨_, hb⟩ => lt_asymm hlt (hmore _ hb)
      simp [hlt.ne, hother]
    · rw [(remove_of_eq _ _ _ _ _ _ _).2]
      have hl : ¬ ∃ weight, (key, old, weight) ∈ left.entries :=
        fun ⟨_, hb⟩ => lt_irrefl _ (hless _ hb)
      have hr : ¬ ∃ weight, (key, old, weight) ∈ right.entries :=
        fun ⟨_, hb⟩ => lt_irrefl _ (hmore _ hb)
      simp [hl, hr, eq_comm]
    · rw [remove_of_gt hgt, ihr hright]
      have hother : ¬ ∃ weight, (key, old, weight) ∈ left.entries :=
        fun ⟨_, hb⟩ => lt_asymm hgt (hless _ hb)
      simp [hgt.ne', hother]

end Order

end Tree

/-! ## The sorted map -/

variable [LinearOrder K]

/-- Sorted lists with the same entries are equal. -/
lemma eq_of_sorted {xs ys : List (K × V)}
    (hxs : xs.Pairwise fun a b => a.1 < b.1) (hys : ys.Pairwise fun a b => a.1 < b.1)
    (h : ∀ pair, pair ∈ xs ↔ pair ∈ ys) : xs = ys := by
  have hnodup : ∀ l : List (K × V), (l.Pairwise fun a b => a.1 < b.1) → l.Nodup := by
    intro l hl
    refine hl.imp ?_
    rintro a b hab rfl
    exact lt_irrefl _ hab
  have hperm : xs.Perm ys := (List.perm_ext_iff_of_nodup (hnodup _ hxs) (hnodup _ hys)).mpr h
  refine hperm.eq_of_pairwise ?_ hxs hys
  intro a b _ _ hab hba
  exact absurd hab (lt_asymm hba)

/-- An edit of a sorted map, with the value it returns. -/
def Edit.reference (map : ExtTreeMap K (V × Measure)) :
    Edit K V → ExtTreeMap K (V × Measure) × Option V
  | .insert key value weight => (map.insert key (value, weight), map[key]?.map Prod.fst)
  | .remove key => (map.erase key, map[key]?.map Prod.fst)

/-- Edit after edit of a sorted map. -/
def Edit.referenceRun (map : ExtTreeMap K (V × Measure)) :
    List (Edit K V) → ExtTreeMap K (V × Measure) × List (Option V)
  | [] => (map, [])
  | edit :: edits =>
    let (next, old) := edit.reference map
    let (last, olds) := referenceRun next edits
    (last, old :: olds)

/-- A tree in order that holds what a sorted map holds. -/
structure RankTree.Mirrors (tree : RankTree K V) (map : ExtTreeMap K (V × Measure)) : Prop where
  sound : tree.root.Sound
  ordered : tree.root.Ordered
  contents : ∀ key value weight,
    (key, value, weight) ∈ tree.root.entries ↔ map[key]? = some (value, weight)

namespace RankTree

variable {tree : RankTree K V} {map : ExtTreeMap K (V × Measure)}

/-- Every edit does to the tree what it does to the map. -/
lemma Mirrors.edit (h : tree.Mirrors map) (edit : Edit K V) :
    (tree.edit edit).1.Mirrors (edit.reference map).1
      ∧ (tree.edit edit).2 = (edit.reference map).2 := by
  have hold : ∀ (key : K) (found : Option V),
      (∀ old, found = some old ↔ ∃ weight, (key, old, weight) ∈ tree.root.entries) →
        found = map[key]?.map Prod.fst := by
    intro key found hfound
    apply Option.ext
    intro old
    rw [hfound]
    simp [h.contents]
  cases edit with
  | insert key value weight =>
    refine ⟨⟨(Tree.sound_insert key value weight h.sound).1,
      Tree.ordered_insert key value weight h.ordered, fun k v w => ?_⟩,
      hold key _ fun old => Tree.insert_previous key value old weight h.ordered⟩
    show (k, v, w) ∈ (tree.root.insert key value weight).1.entries ↔ _
    rw [Tree.mem_entries_insert key value weight h.ordered, h.contents]
    show _ ↔ (map.insert key (value, weight))[k]? = some (v, w)
    rw [ExtTreeMap.getElem?_insert]
    by_cases hkey : key = k
    · subst hkey
      simp [eq_comm]
    · rw [if_neg (by rwa [compare_eq_iff_eq])]
      simp [Ne.symm hkey]
  | remove key =>
    refine ⟨⟨(Tree.sound_remove key h.sound).1, Tree.ordered_remove key h.ordered,
      fun k v w => ?_⟩, hold key _ fun old => Tree.remove_previous key old h.ordered⟩
    show (k, v, w) ∈ (tree.root.remove key).1.entries ↔ _
    rw [Tree.mem_entries_remove key h.ordered, h.contents]
    show _ ↔ (map.erase key)[k]? = some (v, w)
    rw [ExtTreeMap.getElem?_erase]
    by_cases hkey : key = k
    · subst hkey
      simp
    · rw [if_neg (by rwa [compare_eq_iff_eq])]
      simp [Ne.symm hkey]

lemma Mirrors.run (h : tree.Mirrors map) (edits : List (Edit K V)) :
    (tree.run edits).1.Mirrors (Edit.referenceRun map edits).1
      ∧ (tree.run edits).2 = (Edit.referenceRun map edits).2 := by
  induction edits generalizing tree map with
  | nil => exact ⟨h, rfl⟩
  | cons edit edits ih =>
    obtain ⟨hnext, hold⟩ := h.edit edit
    obtain ⟨hlast, holds⟩ := ih hnext
    refine ⟨hlast, ?_⟩
    show (tree.edit edit).2 :: ((tree.edit edit).1.run edits).2
      = (edit.reference map).2 :: (Edit.referenceRun (edit.reference map).1 edits).2
    rw [hold, holds]

/-- Trees and maps with the same blocks list them in the same order. -/
lemma Mirrors.entries_eq (h : tree.Mirrors map) : tree.root.entries = map.toList := by
  have hlist : map.toList.Pairwise fun a b => a.1 < b.1 := by
    refine ExtTreeMap.ordered_keys_toList.imp ?_
    intro a b hab
    exact compare_lt_iff_lt.mp hab
  apply eq_of_sorted h.ordered hlist
  rintro ⟨key, value, weight⟩
  rw [h.contents, ExtTreeMap.mem_toList_iff_getElem?_eq_some]

/-- The empty tree and the empty map. -/
lemma mirrors_empty : RankTree.Mirrors ({} : RankTree K V) ∅ :=
  ⟨trivial, List.Pairwise.nil, fun key value weight => by simp [Tree.entries]⟩

/-- A rank tree is a balanced search tree that behaves as a sorted map: after any edits of the empty
tree, keys are strictly ordered, sibling heights differ by at most one and heights and sums are
exact at every node, and contents and returned values are those of a sorted map. -/
theorem behaves_as_sorted_map (edits : List (Edit K V)) :
    (RankTree.run {} edits).1.root.Ordered
      ∧ (RankTree.run {} edits).1.root.Sound
      ∧ (RankTree.run {} edits).1.root.entries = (Edit.referenceRun ∅ edits).1.toList
      ∧ (RankTree.run {} edits).2 = (Edit.referenceRun ∅ edits).2 := by
  obtain ⟨hmirrors, hold⟩ := mirrors_empty.run edits
  exact ⟨hmirrors.ordered, hmirrors.sound, hmirrors.entries_eq, hold⟩

end RankTree

end EditChain.IndexPages
