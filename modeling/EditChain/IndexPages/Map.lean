import EditChain.Core.Basic
import Mathlib.Data.List.Basic

/-!
# Hash-trie maps

Buckets of a hash map, split by four bits of the hash a level as they grow, so that an append never
rewrites a shard whose size grows with the full history. A bucket splits on any mutable access, down
to a depth where the bits of the hash are used up. Pages are seen through here. The hash function is
a parameter.
-/

namespace EditChain.IndexPages

variable {K V α : Type} [DecidableEq K]

/-! ## Buckets -/

/-- A `HashMap`, in the order of its iteration. -/
abbrev Bucket (K V : Type) := List (K × V)

namespace Bucket

/-- `HashMap::get`. -/
def get (values : Bucket K V) (key : K) : Option V :=
  (values.find? fun entry => decide (entry.1 = key)).map Prod.snd

/-- The map in which `key` has the value `value`, if any, and which is unchanged elsewhere. -/
def set (values : Bucket K V) (key : K) : Option V → Bucket K V
  | none => values.filter fun entry => decide (entry.1 ≠ key)
  | some value =>
    if (values.get key).isSome then
      values.map fun entry => if entry.1 = key then (key, value) else entry
    else values ++ [(key, value)]

/-- `HashMap::insert`: the new map and the old value. -/
def insert (values : Bucket K V) (key : K) (value : V) : Option V × Bucket K V :=
  (values.get key, values.set key (some value))

/-- `HashMap::remove`: the new map and the old value. -/
def remove (values : Bucket K V) (key : K) : Option V × Bucket K V :=
  (values.get key, values.set key none)

/-- An `entry` of a `HashMap`, `and_modify` and then `or_insert_with`, with what is done to the
value: whether the entry was vacant, the value and the new map. -/
def orInsertWith (values : Bucket K V) (key : K) (modify : V → V) (make : Unit → V)
    (update : V → V) : (Bool × V) × Bucket K V :=
  match (values.get key).map modify with
  | some value => ((false, value), values.set key (some (update value)))
  | none => ((true, make ()), values.set key (some (update (make ()))))

end Bucket

/-! ## Tries -/

inductive Node (K V : Type) where
  | bucket (values : Bucket K V)
  | branch (children : List (Node K V))

/-- `invalid_branch`. -/
def invalidBranch : IoError := ⟨.other, "invalid index trie branch"⟩

/-- `slot`: four bits of the hash, and zero when they are used up. -/
def slot (hash : UInt64) (depth : ℕ) : ℕ :=
  if depth * 4 < 64 then (hash.toNat >>> (depth * 4)) &&& 15 else 0

namespace Node

mutual

/-- How many branches lie above the lowest bucket. -/
def height : Node K V → ℕ
  | bucket _ => 0
  | branch children => heights children + 1

/-- The largest height. -/
def heights : List (Node K V) → ℕ
  | [] => 0
  | child :: children => max child.height (heights children)

end

omit [DecidableEq K] in
lemma height_lt_of_mem {child : Node K V} {children : List (Node K V)} (h : child ∈ children) :
    child.height < (branch children).height := by
  rw [height, Nat.lt_succ_iff]
  induction children with
  | nil => cases h
  | cons first children ih =>
    rw [heights]
    rcases List.mem_cons.mp h with rfl | h
    · exact Nat.le_max_left _ _
    · exact Nat.le_trans (ih h) (Nat.le_max_right _ _)

/-- `bucket`. -/
def findBucket (hash : UInt64) (depth : ℕ) (node : Node K V) : Except IoError (Bucket K V) :=
  match node with
  | bucket values => .ok values
  | branch children =>
    match _h : children[slot hash depth]? with
    | none => .error invalidBranch
    | some child => child.findBucket hash (depth + 1)
termination_by node.height
decreasing_by exact height_lt_of_mem (List.mem_of_getElem? _h)

variable (hash : K → UInt64)

/-- Put the entries of a bucket into the buckets of their slots. -/
def distribute (depth : ℕ) : List (Bucket K V) → Bucket K V → List (Bucket K V)
  | buckets, [] => buckets
  | buckets, (key, value) :: values =>
    match buckets[slot (hash key) depth]? with
    | none => distribute depth buckets values
    | some found =>
      distribute depth (buckets.set (slot (hash key) depth) (found.insert key value).2) values

/-- Split a bucket that is large enough, while there are bits left. -/
def grow (depth : ℕ) : Node K V → Node K V
  | bucket values =>
    if depth < 16 ∧ 64 ≤ values.length then
      branch ((distribute hash depth (List.replicate 16 []) values).map bucket)
    else bucket values
  | branch children => branch children

lemma height_child_grow {depth : ℕ} {node child : Node K V} {children : List (Node K V)}
    (hgrow : node.grow hash depth = branch children) (h : child ∈ children) :
    child.height < node.height ∨ (child.height = node.height ∧ 16 - (depth + 1) < 16 - depth) := by
  cases node with
  | bucket values =>
    rw [grow] at hgrow
    split at hgrow
    · next hdepth =>
      cases hgrow
      obtain ⟨values', -, rfl⟩ := List.mem_map.mp h
      exact .inr ⟨rfl, by omega⟩
    · cases hgrow
  | branch others =>
    cases hgrow
    exact .inl (height_lt_of_mem h)

/-- `bucket_mut`, with what is done to the bucket that it returns. -/
def bucketMut (update : Bucket K V → α × Bucket K V) (key : K) (depth : ℕ) (node : Node K V) :
    Except IoError (α × Node K V) :=
  match _hgrow : node.grow hash depth with
  | bucket values => .ok ((update values).1, bucket (update values).2)
  | branch children =>
    match _h : children[slot (hash key) depth]? with
    | none => .error invalidBranch
    | some child => do
      let (result, next) ← child.bucketMut update key (depth + 1)
      return (result, branch (children.set (slot (hash key) depth) next))
termination_by (node.height, 16 - depth)
decreasing_by
  rcases height_child_grow hash _hgrow (List.mem_of_getElem? _h) with hlt | ⟨heq, hlt⟩
  · exact Prod.Lex.left _ _ hlt
  · rw [heq]
    exact Prod.Lex.right _ hlt

mutual

/-- How many nodes there are. -/
def size : Node K V → ℕ
  | bucket _ => 1
  | branch children => sizes children + 1

def sizes : List (Node K V) → ℕ
  | [] => 0
  | child :: children => child.size + sizes children

end

omit [DecidableEq K] in
lemma sizes_append (a b : List (Node K V)) : sizes (a ++ b) = sizes a + sizes b := by
  induction a with
  | nil => simp [sizes]
  | cons child a ih => simp only [List.cons_append, sizes, ih, Nat.add_assoc]

/-- The traversal of `iter`, from a stack of nodes on. -/
def iterFrom (stack : List (Node K V)) : List (K × V) :=
  match stack with
  | [] => []
  | bucket values :: stack => values ++ iterFrom stack
  | branch children :: stack => iterFrom (children ++ stack)
termination_by sizes stack
decreasing_by
  · simp only [sizes, size]
    omega
  · rw [sizes_append]
    simp only [sizes, size]
    omega

end Node

/-! ## Maps -/

/-- A hash map with lazily loaded buckets. -/
structure Map (K V : Type) where
  root : Node K V := .bucket []
  len : ℕ := 0

namespace Map

variable (hash : K → UInt64)

/-- `get`. -/
def get (map : Map K V) (key : K) : Except IoError (Option V) := do
  return (← map.root.findBucket (hash key) 0).get key

/-- `get_mut`, with what is done to the value that it returns. -/
def getMut (map : Map K V) (key : K) (update : V → V) : Except IoError (Option V × Map K V) := do
  let (found, root) ← map.root.bucketMut hash
    (fun values => (values.get key, values.set key ((values.get key).map update))) key 0
  return (found, { map with root := root })

/-- `insert`. -/
def insert (map : Map K V) (key : K) (value : V) : Except IoError (Option V × Map K V) := do
  let (old, root) ← map.root.bucketMut hash (fun values => values.insert key value) key 0
  return (old, { root := root, len := if old.isNone then map.len + 1 else map.len })

/-- `remove`. -/
def remove (map : Map K V) (key : K) : Except IoError (Option V × Map K V) := do
  let (old, root) ← map.root.bucketMut hash (fun values => values.remove key) key 0
  return (old, { root := root, len := if old.isSome then map.len - 1 else map.len })

/-- `entry`, whose slot is only modified: `and_modify`, and then the entry is dropped. -/
def andModify (map : Map K V) (key : K) (update : V → V) : Except IoError (Map K V) := do
  let (_, root) ← map.root.bucketMut hash
    (fun values => ((), values.set key ((values.get key).map update))) key 0
  return { map with root := root }

/-- `entry`, `and_modify` and then `or_insert_with`, with what is done to the value that it returns;
`or_insert` and `or_default` are `or_insert_with`. -/
def orInsertWith (map : Map K V) (key : K) (modify : V → V) (make : Unit → V) (update : V → V) :
    Except IoError (V × Map K V) := do
  let ((vacant, value), root) ← map.root.bucketMut hash
    (fun values => values.orInsertWith key modify make update) key 0
  return (value, { root := root, len := if vacant then map.len + 1 else map.len })

/-- `clear`. -/
def clear (_map : Map K V) : Map K V := {}

omit [DecidableEq K] in
/-- `iter`. -/
def iter (map : Map K V) : List (K × V) := Node.iterFrom [map.root]

/-- A call on a map. -/
inductive Call (K V : Type) where
  | get (key : K)
  | getMut (key : K) (update : V → V)
  | insert (key : K) (value : V)
  | remove (key : K)
  | andModify (key : K) (update : V → V)
  | orInsertWith (key : K) (modify : V → V) (make : Unit → V) (update : V → V)
  | clear

/-- The answer to a call: the value it finds, replaces, removes or makes. -/
def call (map : Map K V) : Call K V → Except IoError (Option V × Map K V)
  | .get key => do return (← map.get hash key, map)
  | .getMut key update => map.getMut hash key update
  | .insert key value => map.insert hash key value
  | .remove key => map.remove hash key
  | .andModify key update => do return (none, ← map.andModify hash key update)
  | .orInsertWith key modify make update => do
    let (value, next) ← map.orInsertWith hash key modify make update
    return (some value, next)
  | .clear => .ok (none, map.clear)

/-- Call after call, with their answers. -/
def run (map : Map K V) : List (Call K V) → Except IoError (List (Option V) × Map K V)
  | [] => .ok ([], map)
  | first :: calls => do
    let (answer, next) ← map.call hash first
    let (answers, last) ← next.run calls
    return (answer :: answers, last)

end Map
end EditChain.IndexPages
