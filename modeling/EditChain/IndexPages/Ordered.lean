import EditChain.IndexPages.Rank

/-!
# Ordered maps and sets

Adapters over the rank tree in which every block has weight one. A range is a cursor with a moving
bound at each end; every step descends from the root again. Sizes are 64 bits wide.
-/

namespace EditChain.IndexPages

variable {K V : Type}

/-- A copy-on-write ordered map. -/
structure OrderedMap (K V : Type) where
  tree : RankTree K V := {}

/-- A range cursor. -/
structure Range (K V : Type) where
  tree : RankTree K V
  start : Bound K
  stop : Bound K

/-- The two ends of a cursor. -/
inductive End where
  | front
  | back
deriving DecidableEq, Repr

/-- The number of nodes. -/
def Tree.size : Tree K V → ℕ
  | none => 0
  | node _ _ _ _ _ left right => left.size + 1 + right.size

variable [LinearOrder K]

/-! ## Ranges -/

/-- `below`. -/
def below (key : K) : Bound K → Bool
  | .unbounded => true
  | .included stop => key ≤ stop
  | .excluded stop => key < stop

/-- The test of `next_back` against the other end. -/
def above (key : K) : Bound K → Bool
  | .unbounded => true
  | .included start => start ≤ key
  | .excluded start => start < key

namespace Range

/-- `next`. -/
def next (range : Range K V) : Option (K × V) × Range K V :=
  match range.tree.bound range.start false with
  | none => (none, range)
  | some pair =>
    if !below pair.1 range.stop then (none, range)
    else (some pair, { range with start := .excluded pair.1 })

/-- `next_back`. -/
def nextBack (range : Range K V) : Option (K × V) × Range K V :=
  match range.tree.bound range.stop true with
  | none => (none, range)
  | some pair =>
    if !above pair.1 range.start then (none, range)
    else (some pair, { range with stop := .excluded pair.1 })

/-- A step at one of the ends. -/
def pull (range : Range K V) : End → Option (K × V) × Range K V
  | .front => range.next
  | .back => range.nextBack

/-- Step after step: what the front yields, what the back yields, and the cursor that is left. -/
def drive : List End → Range K V → List (K × V) × List (K × V) × Range K V
  | [], range => ([], [], range)
  | .front :: ends, range =>
    let (fronts, backs, last) := drive ends range.next.2
    (range.next.1.toList ++ fronts, backs, last)
  | .back :: ends, range =>
    let (fronts, backs, last) := drive ends range.nextBack.2
    (fronts, range.nextBack.1.toList ++ backs, last)

/-- At most `fuel` steps at the front, until it yields nothing. -/
def takeFront : ℕ → Range K V → List (K × V)
  | 0, _ => []
  | fuel + 1, range =>
    match range.next with
    | (none, _) => []
    | (some pair, next) => pair :: takeFront fuel next

/-- `collect`: a step yields a node that no step before it has yielded, so one step more than there
are nodes is enough. -/
def collect (range : Range K V) : List (K × V) := range.takeFront (range.tree.root.size + 1)

end Range

/-! ## Maps -/

namespace OrderedMap

/-- Every key counts once. -/
def weight : Measure := ⟨1, 1⟩

/-- Stored cardinality, without a scan. -/
def len (map : OrderedMap K V) : ℕ := map.tree.measure.expanded.toNat

/-- Test whether this index has no keys. -/
def isEmpty (map : OrderedMap K V) : Bool := map.len == 0

/-- Number of keys strictly below a boundary. -/
def countBefore (map : OrderedMap K V) (key : K) : UInt64 := (map.tree.before key).expanded

/-- Read one value. -/
def get (map : OrderedMap K V) (key : K) : Option V := map.tree.get key

/-- Mutate one value. -/
def getMut (map : OrderedMap K V) (key : K) (change : V → V) : OrderedMap K V :=
  ⟨map.tree.getMut key change⟩

/-- Test membership. -/
def containsKey (map : OrderedMap K V) (key : K) : Bool := (map.get key).isSome

/-- Insert/replace one value. -/
def insert (map : OrderedMap K V) (key : K) (value : V) : OrderedMap K V × Option V :=
  let (tree, previous) := map.tree.edit (.insert key value weight)
  (⟨tree⟩, previous)

/-- Remove a key. -/
def remove (map : OrderedMap K V) (key : K) : OrderedMap K V × Option V :=
  let (tree, previous) := map.tree.edit (.remove key)
  (⟨tree⟩, previous)

/-- First entry. -/
def firstKeyValue (map : OrderedMap K V) : Option (K × V) := map.tree.bound .unbounded false

/-- Last entry. -/
def lastKeyValue (map : OrderedMap K V) : Option (K × V) := map.tree.bound .unbounded true

/-- Traverse a bounded range. -/
def range (map : OrderedMap K V) (start stop : Bound K) : Range K V := ⟨map.tree, start, stop⟩

/-- `entry(key).or_insert_with(make)`, with what the caller does to the value. -/
def orInsertWith (map : OrderedMap K V) (key : K) (make : V) (change : V → V) : OrderedMap K V :=
  let map := if !map.containsKey key then (map.insert key make).1 else map
  map.getMut key change

/-- What changes a map. -/
inductive Change (K V : Type) where
  | insert (key : K) (value : V)
  | remove (key : K)
  | getMut (key : K) (change : V → V)
  | entry (key : K) (make : V) (change : V → V)
  | clear

/-- One change of a map. -/
def change (map : OrderedMap K V) : Change K V → OrderedMap K V
  | .insert key value => (map.insert key value).1
  | .remove key => (map.remove key).1
  | .getMut key change => map.getMut key change
  | .entry key make change => map.orInsertWith key make change
  | .clear => {}

end OrderedMap

/-! ## Sets -/

/-- An ordered set. -/
structure OrderedSet (K : Type) where
  map : OrderedMap K Unit := {}

namespace OrderedSet

/-- Insert one key. -/
def insert (set : OrderedSet K) (key : K) : OrderedSet K × Bool :=
  let (map, previous) := set.map.insert key ()
  (⟨map⟩, previous.isNone)

/-- Remove one key. -/
def remove (set : OrderedSet K) (key : K) : OrderedSet K × Bool :=
  let (map, previous) := set.map.remove key
  (⟨map⟩, previous.isSome)

/-- Ordered traversal. -/
def iter (set : OrderedSet K) : List K :=
  (set.map.range .unbounded .unbounded).collect.map Prod.fst

/-- `extend`. -/
def extend (set : OrderedSet K) (keys : List K) : OrderedSet K :=
  keys.foldl (fun set key => (set.insert key).1) set

/-- Move the suffix beginning at a key into a new set: what stays, and the new set. -/
def splitOff (set : OrderedSet K) (start : K) : OrderedSet K × OrderedSet K :=
  let keys := (set.map.range (.included start) .unbounded).collect.map Prod.fst
  (keys.foldl (fun set key => (set.remove key).1) set, ({} : OrderedSet K).extend keys)

/-- What changes a set; a split goes on with one of its two parts. -/
inductive Change (K : Type) where
  | insert (key : K)
  | remove (key : K)
  | extend (keys : List K)
  | splitOff (start : K) (suffix : Bool)
  | clear

/-- One change of a set. -/
def change (set : OrderedSet K) : Change K → OrderedSet K
  | .insert key => (set.insert key).1
  | .remove key => (set.remove key).1
  | .extend keys => set.extend keys
  | .splitOff start suffix => if suffix then (set.splitOff start).2 else (set.splitOff start).1
  | .clear => {}

end OrderedSet

end EditChain.IndexPages
