import EditChain.IndexPages.Map
import Mathlib.Data.List.Nodup

/-!
# Hash-trie maps are finite maps

The keys of every subtree are those whose hash leads there. So the bucket on the path of a key is
the only place where the key can be, and a change of that bucket is a change of the whole map at
that key. Splitting a bucket moves entries and keeps them all, whatever the hash function.
-/

namespace EditChain.IndexPages

variable {K V α : Type} [DecidableEq K]

/-! ## Buckets -/

namespace Bucket

variable {values : Bucket K V} {key : K}

/-- No key twice. -/
def Distinct (values : List (K × V)) : Prop := (values.map Prod.fst).Nodup

omit [DecidableEq K] in
lemma Distinct.eq_of_mem {values : Bucket K V} (h : Distinct values) {a b : K × V} (ha : a ∈ values)
    (hb : b ∈ values) (hkey : a.1 = b.1) : a = b :=
  List.inj_on_of_nodup_map h ha hb hkey

lemma get_eq_some (h : Distinct values) {value : V} :
    values.get key = some value ↔ (key, value) ∈ values := by
  unfold get
  rw [Option.map_eq_some_iff]
  constructor
  · rintro ⟨⟨key', value'⟩, hfound, rfl⟩
    have hkey := List.find?_some hfound
    rw [decide_eq_true_eq] at hkey
    subst hkey
    exact List.mem_of_find?_eq_some hfound
  · intro hmem
    cases hfound : values.find? fun entry => decide (entry.1 = key) with
    | none => exact absurd (List.find?_eq_none.mp hfound _ hmem) (by simp)
    | some entry =>
      have hkey := List.find?_some hfound
      rw [decide_eq_true_eq] at hkey
      refine ⟨entry, rfl, ?_⟩
      rw [h.eq_of_mem (List.mem_of_find?_eq_some hfound) hmem hkey]

lemma get_eq_none : values.get key = none ↔ ∀ value, (key, value) ∉ values := by
  unfold get
  rw [Option.map_eq_none_iff, List.find?_eq_none]
  constructor
  · intro h value hmem
    exact h _ hmem (by simp)
  · rintro h ⟨key', value⟩ hmem hkey
    rw [decide_eq_true_eq] at hkey
    subst hkey
    exact h value hmem

/-- Setting a key changes that key only. -/
lemma mem_set (values : Bucket K V) (key : K) (next : Option V) (entry : K × V) :
    entry ∈ values.set key next
      ↔ (entry.1 = key ∧ next = some entry.2) ∨ (entry.1 ≠ key ∧ entry ∈ values) := by
  cases next with
  | none =>
    simp only [set, List.mem_filter, decide_eq_true_eq, reduceCtorEq, and_false, false_or]
    exact and_comm
  | some value =>
    rw [set]
    split
    · next hsome =>
      obtain ⟨old, hold⟩ := Option.isSome_iff_exists.mp hsome
      simp only [List.mem_map, Option.some.injEq]
      constructor
      · rintro ⟨other, hother, rfl⟩
        split
        · exact .inl ⟨rfl, rfl⟩
        · next hne => exact .inr ⟨hne, hother⟩
      · rintro (⟨rfl, rfl⟩ | ⟨hne, hmem⟩)
        · unfold get at hold
          obtain ⟨found, hfound, -⟩ := Option.map_eq_some_iff.mp hold
          have hkey := List.find?_some hfound
          rw [decide_eq_true_eq] at hkey
          exact ⟨found, List.mem_of_find?_eq_some hfound, by rw [if_pos hkey]⟩
        · exact ⟨entry, hmem, if_neg hne⟩
    · next hnone =>
      rw [Option.not_isSome_iff_eq_none, get_eq_none] at hnone
      rw [List.mem_append, List.mem_singleton]
      constructor
      · rintro (hmem | rfl)
        · refine .inr ⟨?_, hmem⟩
          rintro rfl
          exact hnone _ hmem
        · exact .inl ⟨rfl, rfl⟩
      · rintro (⟨rfl, hvalue⟩ | ⟨-, hmem⟩)
        · cases hvalue
          exact .inr rfl
        · exact .inl hmem

lemma distinct_set (h : Distinct values) (key : K) (next : Option V) :
    Distinct (values.set key next) := by
  cases next with
  | none => exact h.sublist (List.filter_sublist.map _)
  | some value =>
    rw [set]
    split
    · have hkeys : ((values.map fun entry => if entry.1 = key then (key, value) else entry).map
          Prod.fst) = values.map Prod.fst := by
        rw [List.map_map]
        apply List.map_congr_left
        intro entry _
        show (if entry.1 = key then (key, value) else entry).1 = entry.1
        split
        · next hkey => exact hkey.symm
        · rfl
      unfold Distinct
      rw [hkeys]
      exact h
    · next hnone =>
      rw [Option.not_isSome_iff_eq_none, get_eq_none] at hnone
      unfold Distinct
      rw [List.map_append, List.nodup_append]
      refine ⟨h, List.nodup_singleton _, ?_⟩
      rintro k hk k' hk' rfl
      obtain ⟨⟨k, v⟩, hmem, rfl⟩ := List.mem_map.mp hk
      rw [List.map_singleton, List.mem_singleton] at hk'
      cases hk'
      exact hnone v hmem

/-- A key has at most one entry. -/
lemma length_filter_eq (h : Distinct values) (key : K) :
    (values.filter fun entry => decide (entry.1 = key)).length
      = (values.get key).toList.length := by
  induction values with
  | nil => rfl
  | cons entry values ih =>
    have hrest : Distinct values := (List.nodup_cons.mp h).2
    unfold get at ih ⊢
    rw [List.filter_cons, List.find?_cons]
    by_cases hkey : entry.1 = key
    · have hnone : values.filter (fun other => decide (other.1 = key)) = [] := by
        rw [List.filter_eq_nil_iff]
        intro other hother hsame
        rw [decide_eq_true_eq] at hsame
        apply (List.nodup_cons.mp h).1
        rw [hkey, ← hsame]
        exact List.mem_map_of_mem hother
      simp [hkey, hnone]
    · simp [hkey, ih hrest]

/-- How many entries there are after setting a key. -/
lemma length_set (h : Distinct values) (key : K) (next : Option V) :
    (values.set key next).length + (values.get key).toList.length
      = values.length + next.toList.length := by
  cases next with
  | none =>
    rw [← length_filter_eq h, set]
    have hsplit := List.length_eq_length_filter_add (l := values)
      fun entry => decide (entry.1 = key)
    have hnot : (values.filter fun entry => decide (entry.1 ≠ key))
        = values.filter fun entry => !decide (entry.1 = key) := by
      congr 1
      funext entry
      simp
    rw [hnot, Option.toList_none, List.length_nil]
    omega
  | some value =>
    rw [set]
    split
    · next hsome =>
      obtain ⟨old, hold⟩ := Option.isSome_iff_exists.mp hsome
      simp [hold]
    · next hnone =>
      rw [Option.not_isSome_iff_eq_none] at hnone
      simp [hnone]

end Bucket

/-! ## Routes -/

lemma slot_lt (hash : UInt64) (depth : ℕ) : slot hash depth < 16 := by
  unfold slot
  split
  · exact Nat.lt_succ_of_le Nat.and_le_right
  · omega

namespace Node

mutual

/-- The entries of a node, from left to right. -/
def entries : Node K V → List (K × V)
  | bucket values => values
  | branch children => entriesOf children

def entriesOf : List (Node K V) → List (K × V)
  | [] => []
  | child :: children => child.entries ++ entriesOf children

end

omit [DecidableEq K] in
lemma entriesOf_eq (children : List (Node K V)) : entriesOf children = children.flatMap entries := by
  induction children with
  | nil => rfl
  | cons child children ih => rw [entriesOf, ih, List.flatMap_cons]

omit [DecidableEq K] in
lemma mem_entries_branch {children : List (Node K V)} {entry : K × V} :
    entry ∈ (branch children).entries
      ↔ ∃ (i : ℕ) (child : Node K V), children[i]? = some child ∧ entry ∈ child.entries := by
  rw [entries, entriesOf_eq, List.mem_flatMap]
  constructor
  · rintro ⟨child, hchild, hentry⟩
    obtain ⟨i, hi⟩ := List.mem_iff_getElem?.mp hchild
    exact ⟨i, child, hi, hentry⟩
  · rintro ⟨i, child, hi, hentry⟩
    exact ⟨child, List.mem_of_getElem? hi, hentry⟩

omit [DecidableEq K] in
/-- `iter` lists the entries from left to right. -/
lemma iterFrom_eq (stack : List (Node K V)) : iterFrom stack = entriesOf stack := by
  induction hsize : sizes stack using Nat.strongRecOn generalizing stack with
  | _ n ih =>
    match stack with
    | [] =>
      rw [iterFrom]
      rfl
    | bucket values :: stack =>
      rw [iterFrom, ih (sizes stack) (by rw [← hsize]; simp [sizes, size]) stack rfl]
      rfl
    | branch children :: stack =>
      rw [iterFrom, ih (sizes (children ++ stack))
        (by rw [← hsize, sizes_append]; simp [sizes, size]) _ rfl]
      simp only [entriesOf_eq, List.flatMap_append, List.flatMap_cons, entries]

variable (hash : K → UInt64)

/-- A node at some depth that holds keys of some kind only, each where its hash leads. -/
inductive Routed : ℕ → (K → Prop) → Node K V → Prop where
  | bucket {depth : ℕ} {allowed : K → Prop} {values : Bucket K V}
      (distinct : Bucket.Distinct values) (keys : ∀ entry ∈ values, allowed entry.1) :
      Routed depth allowed (Node.bucket values)
  | branch {depth : ℕ} {allowed : K → Prop} {children : List (Node K V)}
      (length : children.length = 16)
      (child : ∀ (i : ℕ) (child : Node K V), children[i]? = some child →
        Routed (depth + 1) (fun key => allowed key ∧ slot (hash key) depth = i) child) :
      Routed depth allowed (Node.branch children)

variable {hash} {depth : ℕ} {allowed : K → Prop} {node : Node K V} {key : K}

omit [DecidableEq K] in
lemma Routed.keys_allowed (h : Routed hash depth allowed node) :
    ∀ entry ∈ node.entries, allowed entry.1 := by
  induction h with
  | bucket _ keys => exact keys
  | branch length _ ih =>
    intro entry hentry
    obtain ⟨i, child, hchild, hentry⟩ := mem_entries_branch.1 hentry
    exact (ih i child hchild entry hentry).1

omit [DecidableEq K] in
/-- No key is in two places. -/
lemma Routed.distinct_entries (h : Routed hash depth allowed node) :
    Bucket.Distinct node.entries := by
  induction h with
  | bucket distinct _ => exact distinct
  | @branch depth allowed children length hchild ih =>
    have hkeys : (Node.branch children).entries.map Prod.fst
        = children.flatMap fun child => child.entries.map Prod.fst := by
      rw [entries, entriesOf_eq, List.map_flatMap]
    unfold Bucket.Distinct
    rw [hkeys, List.nodup_flatMap]
    refine ⟨?_, ?_⟩
    · intro child hmem
      obtain ⟨i, hi⟩ := List.mem_iff_getElem?.mp hmem
      exact ih i child hi
    · rw [List.pairwise_iff_getElem]
      intro i j hi hj hlt key hin hin'
      obtain ⟨entry, hentry, rfl⟩ := List.mem_map.mp hin
      obtain ⟨entry', hentry', hsame⟩ := List.mem_map.mp hin'
      have hslot := (hchild i _ (List.getElem?_eq_getElem hi)).keys_allowed entry hentry
      have hslot' := (hchild j _ (List.getElem?_eq_getElem hj)).keys_allowed entry' hentry'
      rw [hsame] at hslot'
      exact absurd (hslot.2.symm.trans hslot'.2) (Nat.ne_of_lt hlt)

omit [DecidableEq K] in
/-- The entries of a key are in the child of its slot. -/
lemma mem_entries_slot {children : List (Node K V)}
    (h : Routed hash depth allowed (Node.branch children)) {child : Node K V}
    (hchild : children[slot (hash key) depth]? = some child) (value : V) :
    (key, value) ∈ (Node.branch children).entries ↔ (key, value) ∈ child.entries := by
  rw [mem_entries_branch]
  constructor
  · rintro ⟨i, other, hother, hentry⟩
    cases h with
    | branch length hrouted =>
      have hslot := ((hrouted i other hother).keys_allowed _ hentry).2
      rw [hslot, hother] at hchild
      cases hchild
      exact hentry
  · intro hentry
    exact ⟨_, child, hchild, hentry⟩

lemma exists_slot {β : Type} {children : List β} (length : children.length = 16)
    (hash : UInt64) (depth : ℕ) : ∃ child, children[slot hash depth]? = some child := by
  have hlt := slot_lt hash depth
  exact ⟨_, List.getElem?_eq_getElem (by omega)⟩

lemma get_entries_slot {children : List (Node K V)}
    (h : Routed hash depth allowed (Node.branch children)) {child : Node K V}
    (hrouted : Bucket.Distinct child.entries)
    (hchild : children[slot (hash key) depth]? = some child) :
    Bucket.get (Node.branch children).entries key = Bucket.get child.entries key := by
  apply Option.ext
  intro value
  rw [Bucket.get_eq_some h.distinct_entries, Bucket.get_eq_some hrouted,
    mem_entries_slot h hchild]

/-- The bucket of a key is found, and holds what the node holds for the key. -/
lemma findBucket_spec (h : Routed hash depth allowed node) (key : K) :
    ∃ values, node.findBucket (hash key) depth = .ok values
      ∧ values.get key = Bucket.get node.entries key := by
  induction h with
  | bucket _ _ =>
    refine ⟨_, ?_, rfl⟩
    rw [findBucket, entries]
  | @branch depth allowed children length hrouted ih =>
    obtain ⟨child, hchild⟩ := exists_slot length (hash key) depth
    obtain ⟨values, hfind, hget⟩ := ih _ child hchild
    refine ⟨values, ?_, ?_⟩
    · rw [findBucket]
      split
      · next hnone => rw [hchild] at hnone; cases hnone
      · next other hother =>
        rw [hchild] at hother
        cases hother
        exact hfind
    · rw [hget]
      exact (get_entries_slot (.branch length hrouted)
        (hrouted _ child hchild).distinct_entries hchild).symm

/-! ## Splitting -/

variable (hash) in
lemma length_distribute (depth : ℕ) (buckets : List (Bucket K V)) (values : Bucket K V) :
    (distribute hash depth buckets values).length = buckets.length := by
  fun_induction distribute hash depth buckets values with
  | case1 => rfl
  | case2 _ _ _ _ _ ih => exact ih
  | case3 _ _ _ _ _ _ ih => rw [ih, List.length_set]

variable (hash) in
/-- Distributing new entries puts every one behind those that are in the bucket of its slot. -/
lemma getElem?_distribute (depth : ℕ) {buckets : List (Bucket K V)} {values : Bucket K V}
    (hlength : buckets.length = 16) (hdistinct : Bucket.Distinct values)
    (hnew : ∀ bucket ∈ buckets, ∀ entry ∈ bucket, entry.1 ∉ values.map Prod.fst) (i : ℕ) :
    (distribute hash depth buckets values)[i]? = (buckets[i]?).map
      fun bucket => bucket ++ values.filter fun entry => decide (slot (hash entry.1) depth = i) := by
  induction values generalizing buckets with
  | nil => simp [distribute]
  | cons first values ih =>
    obtain ⟨key, value⟩ := first
    obtain ⟨hfresh, hrest⟩ := List.nodup_cons.mp hdistinct
    obtain ⟨found, hfound⟩ := exists_slot hlength (hash key) depth
    -- The key is not in its bucket yet, so that it goes to the end.
    have hset : found.set key (some value) = found ++ [(key, value)] := by
      have hnone : found.get key = none := by
        rw [Bucket.get_eq_none]
        intro other hother
        apply hnew found (List.mem_of_getElem? hfound) _ hother
        simp
      rw [Bucket.set, hnone]
      rfl
    rw [distribute, hfound]
    simp only [Bucket.insert, hset]
    rw [ih (by rw [List.length_set, hlength]) hrest]
    · rw [List.getElem?_set]
      by_cases hslot : slot (hash key) depth = i
      · subst hslot
        have hlt := slot_lt (hash key) depth
        rw [if_pos rfl, if_pos (by omega), hfound]
        simp
      · simp [hslot]
    · intro bucket hbucket entry hentry hin
      rcases List.mem_or_eq_of_mem_set hbucket with hbucket | rfl
      · exact hnew bucket hbucket entry hentry (List.mem_cons_of_mem _ hin)
      · rcases List.mem_append.mp hentry with hentry | hentry
        · exact hnew found (List.mem_of_getElem? hfound) entry hentry (List.mem_cons_of_mem _ hin)
        · rw [List.mem_singleton] at hentry
          subst hentry
          exact hfresh hin

variable (hash) in
/-- The buckets that a bucket splits into. -/
lemma getElem?_split (depth : ℕ) {values : Bucket K V} (hdistinct : Bucket.Distinct values)
    (i : ℕ) : (distribute hash depth (List.replicate 16 []) values)[i]?
      = if i < 16 then some (values.filter fun entry => decide (slot (hash entry.1) depth = i))
        else none := by
  rw [getElem?_distribute hash depth (List.length_replicate) hdistinct, List.getElem?_replicate]
  · split <;> simp
  · intro bucket hbucket entry hentry
    rw [List.eq_of_mem_replicate hbucket] at hentry
    cases hentry

/-- Splitting a bucket keeps every key where its hash leads. -/
lemma Routed.grow (h : Routed hash depth allowed node) :
    Routed hash depth allowed (node.grow hash depth) := by
  cases h with
  | branch length child => exact .branch length child
  | @bucket _ _ values distinct keys =>
    rw [Node.grow]
    split
    · apply Routed.branch
      · rw [List.length_map, length_distribute, List.length_replicate]
      · intro i child hchild
        rw [List.getElem?_map, getElem?_split hash depth distinct] at hchild
        split at hchild
        · cases hchild
          apply Routed.bucket
          · exact distinct.sublist (List.filter_sublist.map _)
          · intro entry hentry
            rw [List.mem_filter, decide_eq_true_eq] at hentry
            exact ⟨keys entry hentry.1, hentry.2⟩
        · cases hchild
    · exact .bucket distinct keys

/-- Splitting a bucket loses no entry and makes no new one. -/
lemma mem_entries_grow (h : Routed hash depth allowed node) (entry : K × V) :
    entry ∈ (node.grow hash depth).entries ↔ entry ∈ node.entries := by
  cases h with
  | branch length child => rfl
  | @bucket _ _ values distinct keys =>
    rw [Node.grow]
    split
    · rw [mem_entries_branch]
      constructor
      · rintro ⟨i, child, hchild, hentry⟩
        rw [List.getElem?_map, getElem?_split hash depth distinct] at hchild
        split at hchild
        · cases hchild
          exact (List.mem_filter.mp hentry).1
        · cases hchild
      · intro hentry
        refine ⟨slot (hash entry.1) depth, bucket (values.filter fun other =>
          decide (slot (hash other.1) depth = slot (hash entry.1) depth)), ?_, ?_⟩
        · rw [List.getElem?_map, getElem?_split hash depth distinct, if_pos (slot_lt _ _)]
          rfl
        · exact List.mem_filter.mpr ⟨hentry, decide_eq_true rfl⟩
    · rfl

/-! ## Changes of one key -/

/-- What a bucket update does that looks at one key and changes that key only. -/
def atKey (key : K) (result : Option V → α) (next : Option V → Option V) (values : Bucket K V) :
    α × Bucket K V :=
  (result (values.get key), values.set key (next (values.get key)))

lemma get_entries_grow (h : Routed hash depth allowed node) (key : K) :
    Bucket.get (node.grow hash depth).entries key = Bucket.get node.entries key := by
  apply Option.ext
  intro value
  rw [Bucket.get_eq_some h.grow.distinct_entries, Bucket.get_eq_some h.distinct_entries,
    mem_entries_grow h]

/-- A child takes the place of another in which only the entries of one key were different. -/
lemma mem_entries_replace {children : List (Node K V)} {child next : Node K V} {o : Option V}
    (h : Routed hash depth allowed (Node.branch children))
    (hchild : children[slot (hash key) depth]? = some child)
    (hnext : ∀ entry, entry ∈ next.entries ↔ entry ∈ Bucket.set child.entries key o)
    (entry : K × V) :
    entry ∈ (Node.branch (children.set (slot (hash key) depth) next)).entries
      ↔ entry ∈ Bucket.set (Node.branch children).entries key o := by
  have hlt : slot (hash key) depth < children.length :=
    (List.getElem?_eq_some_iff.mp hchild).1
  rw [Bucket.mem_set, mem_entries_branch, mem_entries_branch]
  constructor
  · rintro ⟨i, other, hother, hentry⟩
    rw [List.getElem?_set] at hother
    split at hother
    · next heq =>
      cases hother
      rw [hnext, Bucket.mem_set] at hentry
      rcases hentry with hentry | ⟨hne, hentry⟩
      · exact .inl hentry
      · exact .inr ⟨hne, _, child, hchild, hentry⟩
    · next hne =>
      refine .inr ⟨?_, i, other, hother, hentry⟩
      rintro rfl
      cases h with
      | branch length hrouted =>
        exact hne ((hrouted i other hother).keys_allowed entry hentry).2
  · rintro (⟨hkey, hvalue⟩ | ⟨hne, i, other, hother, hentry⟩)
    · refine ⟨slot (hash key) depth, next, ?_, ?_⟩
      · rw [List.getElem?_set, if_pos rfl, if_pos hlt]
      · rw [hnext, Bucket.mem_set]
        exact .inl ⟨hkey, hvalue⟩
    · by_cases hi : slot (hash key) depth = i
      · subst hi
        rw [hchild] at hother
        cases hother
        refine ⟨slot (hash key) depth, next, ?_, ?_⟩
        · rw [List.getElem?_set, if_pos rfl, if_pos hlt]
        · rw [hnext, Bucket.mem_set]
          exact .inr ⟨hne, hentry⟩
      · refine ⟨i, other, ?_, hentry⟩
        rw [List.getElem?_set, if_neg hi]
        exact hother

/-- Growing and then changing the bucket of a key is a change of the whole node at that key. -/
lemma bucketMut_spec (h : Routed hash depth allowed node) (hkey : allowed key)
    (result : Option V → α) (next : Option V → Option V) :
    ∃ node', node.bucketMut hash (atKey key result next) key depth
        = .ok (result (Bucket.get node.entries key), node')
      ∧ Routed hash depth allowed node'
      ∧ ∀ entry, entry ∈ node'.entries
        ↔ entry ∈ Bucket.set node.entries key (next (Bucket.get node.entries key)) := by
  fun_induction bucketMut hash (atKey key result next) key depth node generalizing allowed with
  | case1 depth node values hgrow =>
    have hget := get_entries_grow h key
    have hmem := mem_entries_grow h
    have hgrown := h.grow
    rw [hgrow] at hget hmem hgrown
    cases hgrown with
    | bucket distinct keys =>
      refine ⟨_, by rw [atKey, ← hget]; rfl, .bucket (Bucket.distinct_set distinct _ _) ?_, ?_⟩
      · intro entry hentry
        rcases (Bucket.mem_set _ _ _ _).mp hentry with ⟨rfl, -⟩ | ⟨-, hentry⟩
        · exact hkey
        · exact keys entry hentry
      · intro entry
        show entry ∈ Bucket.set values key _ ↔ _
        rw [Bucket.mem_set, Bucket.mem_set, ← hmem, ← hget]
        rfl
  | case2 depth node children hgrow hnone =>
    have hgrown := h.grow
    rw [hgrow] at hgrown
    cases hgrown with
    | branch length _ =>
      obtain ⟨child, hchild⟩ := exists_slot length (hash key) depth
      rw [hchild] at hnone
      cases hnone
  | case3 depth node children hgrow child hchild ih =>
    have hget := get_entries_grow h key
    have hmem := mem_entries_grow h
    have hgrown := h.grow
    rw [hgrow] at hget hmem hgrown
    cases hgrown with
    | branch length hrouted =>
      have hslot := get_entries_slot (.branch length hrouted)
        (hrouted _ child hchild).distinct_entries hchild
      obtain ⟨node', hcall, hrouted', hentries⟩ := ih (hrouted _ child hchild) ⟨hkey, rfl⟩
      rw [hcall, ← hslot, hget]
      refine ⟨_, rfl, .branch (by rw [List.length_set, length]) ?_, ?_⟩
      · intro i other hother
        rw [List.getElem?_set] at hother
        split at hother
        · next heq =>
          subst heq
          rw [if_pos (List.getElem?_eq_some_iff.mp hchild).1] at hother
          cases hother
          exact hrouted'
        · exact hrouted i other hother
      · intro entry
        rw [← hslot, hget] at hentries
        rw [mem_entries_replace (.branch length hrouted) hchild hentries, Bucket.mem_set,
          Bucket.mem_set, hmem]

end Node

/-! ## Maps -/

namespace Map

/-- A finite map as the reference: what every key has. -/
abbrev Reference (K V : Type) := K → Option V

/-- The answer to a call on the reference, and the reference after it. -/
def Call.onReference (reference : Reference K V) : Call K V → Option V × Reference K V
  | .get key => (reference key, reference)
  | .getMut key update =>
    (reference key, Function.update reference key ((reference key).map update))
  | .insert key value => (reference key, Function.update reference key (some value))
  | .remove key => (reference key, Function.update reference key none)
  | .andModify key update =>
    (none, Function.update reference key ((reference key).map update))
  | .orInsertWith key modify make update =>
    let value := ((reference key).map modify).getD (make ())
    (some value, Function.update reference key (some (update value)))
  | .clear => (none, fun _ => none)

/-- Call after call on the reference, with their answers. -/
def Call.runReference (reference : Reference K V) :
    List (Call K V) → List (Option V) × Reference K V
  | [] => ([], reference)
  | first :: calls =>
    let (answer, next) := first.onReference reference
    let (answers, last) := runReference next calls
    (answer :: answers, last)

variable (hash : K → UInt64)

/-- The map holds what the reference holds, every key where its hash leads, and counts it. -/
structure Mirrors (map : Map K V) (reference : Reference K V) : Prop where
  routed : map.root.Routed hash 0 fun _ => True
  contents : ∀ key, Bucket.get map.root.entries key = reference key
  len : map.len = map.root.entries.length

variable {hash} {map : Map K V} {reference : Reference K V}

omit [DecidableEq K] in
lemma iter_eq (map : Map K V) : map.iter = map.root.entries := by
  unfold iter
  rw [Node.iterFrom_eq, Node.entriesOf_eq]
  simp

lemma Mirrors.mem_entries (h : Mirrors hash map reference) (key : K) (value : V) :
    (key, value) ∈ map.root.entries ↔ reference key = some value := by
  rw [← h.contents, Bucket.get_eq_some h.routed.distinct_entries]

variable (hash) in
lemma mirrors_empty : Mirrors hash ({} : Map K V) fun _ => none where
  routed := .bucket List.nodup_nil (by simp)
  contents _ := rfl
  len := rfl

lemma Mirrors.get_eq (h : Mirrors hash map reference) (key : K) :
    map.get hash key = .ok (reference key) := by
  obtain ⟨values, hfind, hget⟩ := Node.findBucket_spec h.routed key
  unfold get
  rw [hfind, ← h.contents, ← hget]
  rfl

/-- A change of one key: what is answered is that of the reference, and the count changes as
told. -/
lemma Mirrors.bucketMut (h : Mirrors hash map reference) (key : K) (result : Option V → α)
    (next : Option V → Option V) :
    ∃ root, map.root.bucketMut hash (Node.atKey key result next) key 0
        = .ok (result (reference key), root)
      ∧ ∀ len, len + (reference key).toList.length
          = map.len + (next (reference key)).toList.length →
        Mirrors hash ⟨root, len⟩ (Function.update reference key (next (reference key))) := by
  obtain ⟨root, hcall, hrouted, hentries⟩ := Node.bucketMut_spec h.routed trivial result next
  rw [h.contents] at hcall hentries
  refine ⟨root, hcall, fun len hlen => ⟨hrouted, fun other => ?_, ?_⟩⟩
  · apply Option.ext
    intro value
    rw [Bucket.get_eq_some hrouted.distinct_entries, hentries, Bucket.mem_set, h.mem_entries]
    by_cases hother : other = key
    · simp [hother]
    · simp [hother]
  · have hset := Bucket.distinct_set h.routed.distinct_entries key (next (reference key))
    have hperm := (List.perm_ext_iff_of_nodup hrouted.distinct_entries.of_map hset.of_map).mpr
      hentries
    have hcount := Bucket.length_set h.routed.distinct_entries key (next (reference key))
    rw [← hperm.length_eq, h.contents, ← h.len] at hcount
    show len = root.entries.length
    omega

/-- A key that the reference has is counted. -/
lemma Mirrors.len_pos (h : Mirrors hash map reference) {key : K} {value : V}
    (hkey : reference key = some value) : 0 < map.len := by
  rw [h.len]
  exact List.length_pos_of_mem ((h.mem_entries key value).mpr hkey)

/-- One call: it does not fail, the answer is that of the reference, and so is what is left. -/
lemma Mirrors.call (h : Mirrors hash map reference) (step : Call K V) :
    ∃ next, map.call hash step = .ok ((step.onReference reference).1, next)
      ∧ Mirrors hash next (step.onReference reference).2 := by
  cases step with
  | get key =>
    refine ⟨map, ?_, h⟩
    simp only [Map.call, h.get_eq]
    rfl
  | getMut key update =>
    obtain ⟨root, hcall, hnext⟩ := h.bucketMut key id (·.map update)
    refine ⟨{ map with root := root }, ?_, hnext _ ?_⟩
    · have hupdate : (fun values : Bucket K V => (values.get key,
          values.set key ((values.get key).map update))) = Node.atKey key id (·.map update) := rfl
      rw [Map.call, getMut, hupdate, hcall]
      rfl
    · cases reference key <;> simp
  | insert key value =>
    obtain ⟨root, hcall, hnext⟩ := h.bucketMut key id fun _ => some value
    refine ⟨⟨root, if (reference key).isNone then map.len + 1 else map.len⟩, ?_, hnext _ ?_⟩
    · have hupdate : (fun values : Bucket K V => values.insert key value)
          = Node.atKey key id fun _ => some value := rfl
      rw [Map.call, insert, hupdate, hcall]
      rfl
    · cases reference key <;> simp
  | remove key =>
    obtain ⟨root, hcall, hnext⟩ := h.bucketMut key id fun _ => none
    refine ⟨⟨root, if (reference key).isSome then map.len - 1 else map.len⟩, ?_, hnext _ ?_⟩
    · have hupdate : (fun values : Bucket K V => values.remove key)
          = Node.atKey key id fun _ => none := rfl
      rw [Map.call, remove, hupdate, hcall]
      rfl
    · cases hkey : reference key with
      | none => simp
      | some value =>
        have hpos := h.len_pos hkey
        simp only [Option.isSome_some, if_true, Option.toList_some, List.length_singleton,
          Option.toList_none, List.length_nil]
        omega
  | andModify key update =>
    obtain ⟨root, hcall, hnext⟩ := h.bucketMut key (fun _ => ()) (·.map update)
    refine ⟨{ map with root := root }, ?_, hnext _ ?_⟩
    · have hupdate : (fun values : Bucket K V => ((), values.set key ((values.get key).map update)))
          = Node.atKey key (fun _ => ()) (·.map update) := rfl
      rw [Map.call, andModify, hupdate, hcall]
      rfl
    · cases reference key <;> simp
  | orInsertWith key modify make update =>
    obtain ⟨root, hcall, hnext⟩ := h.bucketMut key
      (fun old => ((old.map modify).isNone, (old.map modify).getD (make ())))
      fun old => some (update ((old.map modify).getD (make ())))
    refine ⟨⟨root, if ((reference key).map modify).isNone then map.len + 1 else map.len⟩, ?_,
      hnext _ ?_⟩
    · have hupdate : (fun values : Bucket K V => values.orInsertWith key modify make update)
          = Node.atKey key
            (fun old => ((old.map modify).isNone, (old.map modify).getD (make ())))
            fun old => some (update ((old.map modify).getD (make ()))) := by
        funext values
        unfold Node.atKey Bucket.orInsertWith
        cases values.get key <;> rfl
      rw [Map.call, orInsertWith, hupdate, hcall]
      rfl
    · cases reference key <;> simp
  | clear => exact ⟨{}, rfl, mirrors_empty hash⟩

lemma Mirrors.run (h : Mirrors hash map reference) (calls : List (Call K V)) :
    ∃ last, map.run hash calls = .ok ((Call.runReference reference calls).1, last)
      ∧ Mirrors hash last (Call.runReference reference calls).2 := by
  induction calls generalizing map reference with
  | nil => exact ⟨map, rfl, h⟩
  | cons first calls ih =>
    obtain ⟨next, hcall, hnext⟩ := h.call first
    obtain ⟨last, hrun, hlast⟩ := ih hnext
    refine ⟨last, ?_, hlast⟩
    rw [Map.run, hcall]
    show ((next.run hash calls).bind _) = _
    rw [hrun]
    rfl

/-- A map is a finite map, whatever the hash function: no sequence of calls fails, every answer is
that of the reference, and afterwards the map finds for every key what the reference has, `iter`
has every entry of the reference once and no other, and `len` counts them. Splitting a bucket at any
depth keeps all its entries, each once. -/
theorem hash_trie_is_finite_map (hash : K → UInt64) (calls : List (Call K V)) :
    (∃ last, ({} : Map K V).run hash calls
        = .ok ((Call.runReference (fun _ => none) calls).1, last)
      ∧ (∀ key, last.get hash key = .ok ((Call.runReference (fun _ => none) calls).2 key))
      ∧ (∀ key value, (key, value) ∈ last.iter
        ↔ (Call.runReference (fun _ => none) calls).2 key = some value)
      ∧ (last.iter.map Prod.fst).Nodup
      ∧ last.len = last.iter.length)
    ∧ ∀ (depth : ℕ) (values : Bucket K V), Bucket.Distinct values →
        ((Node.bucket values).grow hash depth).entries.Perm values := by
  refine ⟨?_, fun depth values hdistinct => ?_⟩
  · obtain ⟨last, hrun, hlast⟩ := (mirrors_empty hash).run calls
    refine ⟨last, hrun, hlast.get_eq, ?_, ?_, ?_⟩
    · intro key value
      rw [iter_eq, hlast.mem_entries]
    · rw [iter_eq]
      exact hlast.routed.distinct_entries
    · rw [iter_eq]
      exact hlast.len
  · have hrouted : (Node.bucket values).Routed hash depth fun _ => True :=
      .bucket hdistinct fun _ _ => trivial
    rw [List.perm_ext_iff_of_nodup hrouted.grow.distinct_entries.of_map hdistinct.of_map]
    exact Node.mem_entries_grow hrouted

end Map
end EditChain.IndexPages
