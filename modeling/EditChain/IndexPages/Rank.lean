import EditChain.IndexPages.RankTree

/-!
# Queries of a rank tree

Every query is one descent from the root. `rank`, `prefix` and `select` add up the weights of what
they leave to their left, `bound` keeps the last block it accepted, and `prefixes` answers a sorted
batch of queries in one walk.
-/

namespace EditChain.IndexPages

/-- Coordinate space used by rank/select queries. -/
inductive Axis where
  | expanded
  | visible
deriving DecidableEq, Repr

/-- `along`. -/
def Measure.along (measure : Measure) : Axis → UInt64
  | .expanded => measure.expanded
  | .visible => measure.visible

variable {K V : Type}

/-- `std::ops::Bound`. -/
inductive Bound (K : Type) where
  | included (key : K)
  | excluded (key : K)
  | unbounded
deriving DecidableEq, Repr

/-- `sort_unstable_by` on the keys of enumerated queries: some sorted rearrangement. -/
structure SortUnstable (K : Type) [LinearOrder K] where
  sort : List (K × ℕ) → List (K × ℕ)
  perm : ∀ queries, (sort queries).Perm queries
  sorted : ∀ queries, (sort queries).Pairwise fun a b => a.1 ≤ b.1

/-- `partition_point` of a slice whose elements that satisfy the predicate come first. -/
def partitionPoint {α : Type} (p : α → Bool) (slice : List α) : ℕ := (slice.takeWhile p).length

namespace Tree

variable [LinearOrder K]

/-- The loop of `get`. -/
def get (key : K) : Tree K V → Option V
  | none => .none
  | node key' value _ _ _ left right =>
    match compare key key' with
    | .lt => left.get key
    | .gt => right.get key
    | .eq => some value

/-- `get_mut`, with what the caller does to the value. -/
def getMut (key : K) (change : V → V) : Tree K V → Tree K V
  | none => none
  | node key' value weight sum height left right =>
    match compare key key' with
    | .lt => node key' value weight sum height (left.getMut key change) right
    | .gt => node key' value weight sum height left (right.getMut key change)
    | .eq => node key' (change value) weight sum height left right

/-- A key satisfies a lower bound, or an upper bound in reverse. -/
def accepts (bound : Bound K) (reverse : Bool) (key : K) : Bool :=
  match bound with
  | .unbounded => true
  | .included limit => if reverse then key ≤ limit else limit ≤ key
  | .excluded limit => if reverse then key < limit else limit < key

/-- The loop of `bound`. -/
def bound (limit : Bound K) (reverse : Bool) : Tree K V → Option (K × V) → Option (K × V)
  | none, result => result
  | node key value _ _ _ left right, result =>
    let accepted := accepts limit reverse key
    let result := if accepted then some (key, value) else result
    if accepted = reverse then right.bound limit reverse result
    else left.bound limit reverse result

/-- The loop of `rank`. -/
def rank (key : K) : Tree K V → Measure → Option Measure
  | none, _ => .none
  | node key' _ weight _ _ left right, sum =>
    match compare key key' with
    | .lt => left.rank key sum
    | .gt => right.rank key ((sum.plus left.measure).plus weight)
    | .eq => some (sum.plus left.measure)

/-- The loop of `prefix`. -/
def before (key : K) : Tree K V → Measure → Measure
  | none, sum => sum
  | node key' _ weight _ _ left right, sum =>
    if key ≤ key' then left.before key sum
    else right.before key ((sum.plus left.measure).plus weight)

/-- `prefix_batch`. -/
def prefixBatch : Tree K V → List (K × ℕ) → Measure → List Measure → List Measure
  | none, queries, sum, output => queries.foldl (fun output query => output.set query.2 sum) output
  | node key _ weight _ _ left right, queries, sum, output =>
    if queries.isEmpty then output
    else
      let split := partitionPoint (fun query => query.1 ≤ key) queries
      let output := left.prefixBatch (queries.take split) sum output
      right.prefixBatch (queries.drop split) ((sum.plus left.measure).plus weight) output

omit [LinearOrder K] in
/-- The loop of `select`. -/
def select (offset : UInt64) (axis : Axis) : Tree K V → Measure → Option (K × V × Measure)
  | none, _ => .none
  | node key value weight _ _ left right, sum =>
    let start := sum.plus left.measure
    if offset < start.along axis then left.select offset axis sum
    else if offset < (start.plus weight).along axis then some (key, value, start)
    else right.select offset axis (start.plus weight)

end Tree

namespace RankTree

/-- Aggregate row counts. -/
def measure (tree : RankTree K V) : Measure := tree.root.measure

/-- The block containing an offset and its prefix weights in both spaces. -/
def select (tree : RankTree K V) (offset : UInt64) (axis : Axis) : Option (K × V × Measure) :=
  tree.root.select offset axis {}

variable [LinearOrder K]

/-- Find a value by stable order key. -/
def get (tree : RankTree K V) (key : K) : Option V := tree.root.get key

/-- Mutate one value without changing its subtree weight. -/
def getMut (tree : RankTree K V) (key : K) (change : V → V) : RankTree K V :=
  ⟨tree.root.getMut key change⟩

/-- First key satisfying a lower bound, or last key satisfying an upper bound. -/
def bound (tree : RankTree K V) (limit : Bound K) (reverse : Bool) : Option (K × V) :=
  tree.root.bound limit reverse none

/-- Prefix weights before a named block. -/
def rank (tree : RankTree K V) (key : K) : Option Measure := tree.root.rank key {}

/-- `prefix`: prefix weights strictly before any key, including absent keys. -/
def before (tree : RankTree K V) (key : K) : Measure := tree.root.before key {}

/-- Prefix weights for a bounded batch, preserving the supplied key order. -/
def prefixes (tree : RankTree K V) (sortUnstable : SortUnstable K) (keys : List K) : List Measure :=
  tree.root.prefixBatch (sortUnstable.sort keys.zipIdx) {} (List.replicate keys.length {})

end RankTree

end EditChain.IndexPages
