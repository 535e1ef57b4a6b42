import Mathlib.Algebra.GroupWithZero.Nat
import Mathlib.Order.Compare
import Mathlib.Order.Lattice
import Std.Data.ExtTreeMap

/-!
# Rank trees

An AVL tree of keyed, weighted blocks: every node carries its height and the total weight of its
subtree. Edits rebuild the path to the root, rotating where the heights of siblings differ by more
than one. Pages are seen through here; a link is a tree.
-/

namespace EditChain.IndexPages

/-- `saturating_add` on `u64`. -/
def saturatingAdd (a b : UInt64) : UInt64 := UInt64.ofNat (min (a.toNat + b.toNat) (2 ^ 64 - 1))

/-- Expanded and currently visible row counts for a presentation block. -/
@[ext] structure Measure where
  expanded : UInt64 := 0
  visible : UInt64 := 0
deriving DecidableEq, Repr

/-- `plus`. -/
def Measure.plus (a b : Measure) : Measure :=
  ⟨saturatingAdd a.expanded b.expanded, saturatingAdd a.visible b.visible⟩

variable {K V : Type}

instance transOrd_linear [LinearOrder K] : Std.TransOrd K := inferInstance

/-- A link: nothing, or a page with a node. A tree of height `2 ^ 32` does not fit in any memory, so
the height is a number. -/
inductive Tree (K V : Type) where
  | none
  | node (key : K) (value : V) (weight sum : Measure) (height : ℕ) (left right : Tree K V)
deriving DecidableEq, Repr

/-- A keyed, weighted block. -/
abbrev Block (K V : Type) := K × V × Measure

namespace Tree

/-- `height`: as stored. -/
def height : Tree K V → ℕ
  | none => 0
  | node _ _ _ _ height _ _ => height

/-- `measure`: as stored. -/
def measure : Tree K V → Measure
  | none => {}
  | node _ _ _ sum _ _ _ => sum

/-- `Node::fix`: recompute height and sum from the children. -/
def fix : Tree K V → Tree K V
  | none => none
  | node key value weight _ _ left right =>
    node key value weight ((left.measure.plus weight).plus right.measure)
      (max left.height right.height + 1) left right

/-- `left`: the right child becomes the root. -/
def rotateLeft : Tree K V → Tree K V
  | node key value weight sum height left (node key' value' weight' sum' height' left' right') =>
    fix (node key' value' weight' sum' height' (fix (node key value weight sum height left left'))
      right')
  | tree => tree

/-- `right`: the left child becomes the root. -/
def rotateRight : Tree K V → Tree K V
  | node key value weight sum height (node key' value' weight' sum' height' left' right') right =>
    fix (node key' value' weight' sum' height' left'
      (fix (node key value weight sum height right' right)))
  | tree => tree

/-- The left child of a tree that leans to the left, made ready for a rotation. -/
def leanLeft : Tree K V → Tree K V
  | node key value weight sum height left right =>
    if left.height < right.height then rotateLeft (node key value weight sum height left right)
    else node key value weight sum height left right
  | none => none

/-- The right child of a tree that leans to the right, made ready for a rotation. -/
def leanRight : Tree K V → Tree K V
  | node key value weight sum height left right =>
    if right.height < left.height then rotateRight (node key value weight sum height left right)
    else node key value weight sum height left right
  | none => none

/-- `balance`. -/
def balance (tree : Tree K V) : Tree K V :=
  match tree.fix with
  | node key value weight sum height left right =>
    if right.height + 1 < left.height then
      rotateRight (node key value weight sum height left.leanLeft right)
    else if left.height + 1 < right.height then
      rotateLeft (node key value weight sum height left right.leanRight)
    else node key value weight sum height left right
  | none => none

/-- `pop_min`, on the node that a page holds. -/
def popMin (key : K) (value : V) (weight sum : Measure) (height : ℕ) :
    Tree K V → Tree K V → Tree K V × Block K V
  | none, right => (right, key, value, weight)
  | node key' value' weight' sum' height' left' right', right =>
    let (child, smallest) := popMin key' value' weight' sum' height' left' right'
    (balance (node key value weight sum height child right), smallest)

variable [LinearOrder K]

/-- `insert`: the new root, and the value that was replaced. -/
def insert (key : K) (value : V) (weight : Measure) : Tree K V → Tree K V × Option V
  | none => (node key value weight weight 1 none none, .none)
  | node key' value' weight' sum height left right =>
    match compare key key' with
    | .lt =>
      let (child, previous) := insert key value weight left
      (balance (node key' value' weight' sum height child right), previous)
    | .gt =>
      let (child, previous) := insert key value weight right
      (balance (node key' value' weight' sum height left child), previous)
    | .eq => (balance (node key' value weight sum height left right), some value')

/-- `remove`: the new root, and the value that was removed. -/
def remove (key : K) : Tree K V → Tree K V × Option V
  | none => (none, .none)
  | node key' value weight sum height left right =>
    match compare key key' with
    | .lt =>
      let (child, old) := remove key left
      (balance (node key' value weight sum height child right), old)
    | .gt =>
      let (child, old) := remove key right
      (balance (node key' value weight sum height left child), old)
    | .eq =>
      match right with
      | none => (left, some value)
      | node key₁ value₁ weight₁ sum₁ height₁ left₁ right₁ =>
        let (child, successor) := popMin key₁ value₁ weight₁ sum₁ height₁ left₁ right₁
        (balance (node successor.1 successor.2.1 successor.2.2 sum height left child), some value)

end Tree

/-- A keyed, weighted sequence. -/
structure RankTree (K V : Type) where
  root : Tree K V := .none

/-- The edits of a sequence. -/
inductive Edit (K V : Type) where
  | insert (key : K) (value : V) (weight : Measure)
  | remove (key : K)

variable [LinearOrder K]

/-- Insert or replace one block, or remove one, returning any old value. -/
def RankTree.edit (tree : RankTree K V) : Edit K V → RankTree K V × Option V
  | .insert key value weight =>
    let (root, previous) := tree.root.insert key value weight
    (⟨root⟩, previous)
  | .remove key =>
    let (root, previous) := tree.root.remove key
    (⟨root⟩, previous)

/-- Edit after edit, with the values they return. -/
def RankTree.run (tree : RankTree K V) : List (Edit K V) → RankTree K V × List (Option V)
  | [] => (tree, [])
  | edit :: edits =>
    let (next, old) := tree.edit edit
    let (last, olds) := next.run edits
    (last, old :: olds)

end EditChain.IndexPages
