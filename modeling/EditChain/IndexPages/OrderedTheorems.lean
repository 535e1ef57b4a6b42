import EditChain.IndexPages.Ordered
import EditChain.IndexPages.RankTheorems

/-!
# Double-ended ranges are exact

A descent from the root finds the first key of a lower bound or the last one of an upper bound. So a
cursor holds, at every moment, the entries that neither end has yielded, and the ends meet exactly
when none is left.
-/

namespace EditChain.IndexPages

open Std (ExtTreeMap ExtTreeSet)

variable {K V : Type}

/-! ## Descents to a bound -/

namespace Tree

/-- The keys and values, in order. -/
def pairs (tree : Tree K V) : List (K × V) := tree.entries.map fun block => (block.1, block.2.1)

@[simp] lemma pairs_none : (none : Tree K V).pairs = [] := rfl

@[simp] lemma pairs_node (key : K) (value : V) (weight sum : Measure) (height : ℕ)
    (left right : Tree K V) :
    (node key value weight sum height left right).pairs
      = left.pairs ++ (key, value) :: right.pairs := by
  simp [pairs, entries]

lemma length_pairs (tree : Tree K V) : tree.pairs.length = tree.size := by
  induction tree with
  | none => rfl
  | node key value weight sum height left right ihl ihr =>
    rw [pairs_node, List.length_append, List.length_cons, ihl, ihr, size]
    omega

variable [LinearOrder K]

lemma Ordered.pairs {tree : Tree K V} (h : tree.Ordered) :
    tree.pairs.Pairwise fun a b => a.1 < b.1 := List.pairwise_map.mpr h

/-- What lies above an accepted key is above the lower bound too. -/
lemma accepts_of_le {limit : Bound K} {a b : K} (h : accepts limit false a) (hab : a ≤ b) :
    accepts limit false b := by
  cases limit with
  | unbounded => rfl
  | included key => simpa [accepts] using le_trans (by simpa [accepts] using h) hab
  | excluded key => simpa [accepts] using lt_of_lt_of_le (by simpa [accepts] using h) hab

/-- What lies below an accepted key is below the upper bound too. -/
lemma accepts_of_ge {limit : Bound K} {a b : K} (h : accepts limit true a) (hab : b ≤ a) :
    accepts limit true b := by
  cases limit with
  | unbounded => rfl
  | included key => simpa [accepts] using le_trans hab (by simpa [accepts] using h)
  | excluded key => simpa [accepts] using lt_of_le_of_lt hab (by simpa [accepts] using h)

/-- The first entry that satisfies a lower bound. -/
lemma bound_front (limit : Bound K) {tree : Tree K V} (h : tree.Ordered)
    (result : Option (K × V)) :
    tree.bound limit false result
      = (tree.pairs.filter fun pair => accepts limit false pair.1).head?.or result := by
  induction tree generalizing result with
  | none => simp [bound]
  | node key value weight sum height left right ihl ihr =>
    obtain ⟨hleft, hright, hless, -⟩ := ordered_node.1 h
    rw [bound, pairs_node, List.filter_append, List.filter_cons]
    by_cases haccepts : accepts limit false key
    · simp only [haccepts, if_true, Bool.true_eq_false, if_false, ihl hleft, List.head?_append,
        List.head?_cons, Option.or_assoc, Option.some_or]
    · have hnone : left.pairs.filter (fun pair => accepts limit false pair.1) = [] := by
        rw [List.filter_eq_nil_iff]
        intro pair hpair haccepted
        obtain ⟨block, hblock, rfl⟩ := List.mem_map.mp hpair
        exact haccepts (accepts_of_le haccepted (hless block hblock).le)
      simp only [haccepts, Bool.false_eq_true, if_false, if_true, ihr hright, hnone,
        List.nil_append]

/-- The last entry that satisfies an upper bound. -/
lemma bound_back (limit : Bound K) {tree : Tree K V} (h : tree.Ordered)
    (result : Option (K × V)) :
    tree.bound limit true result
      = (tree.pairs.filter fun pair => accepts limit true pair.1).getLast?.or result := by
  induction tree generalizing result with
  | none => simp [bound]
  | node key value weight sum height left right ihl ihr =>
    obtain ⟨hleft, hright, -, hmore⟩ := ordered_node.1 h
    rw [bound, pairs_node, List.filter_append, List.filter_cons]
    by_cases haccepts : accepts limit true key
    · simp only [haccepts, if_true, ihr hright]
      rw [List.getLast?_append, List.getLast?_cons, Option.some_or]
      cases (right.pairs.filter fun pair => accepts limit true pair.1).getLast? with
      | none => rfl
      | some pair => rfl
    · have hnone : right.pairs.filter (fun pair => accepts limit true pair.1) = [] := by
        rw [List.filter_eq_nil_iff]
        intro pair hpair haccepted
        obtain ⟨block, hblock, rfl⟩ := List.mem_map.mp hpair
        exact haccepts (accepts_of_ge haccepted (hmore block hblock).le)
      simp only [haccepts, Bool.false_eq_true, if_false, ihl hleft, hnone, List.append_nil]

end Tree

/-! ## Cursors -/

section Sorted

variable [LinearOrder K] {pairs : List (K × V)} (low high : K → Bool)

/-- Entries between two bounds. -/
def between (pairs : List (K × V)) : List (K × V) :=
  pairs.filter fun pair => low pair.1 && high pair.1

/-- The first entry above a lower bound is the first one between the bounds, or there is none. -/
lemma between_front (h : pairs.Pairwise fun a b => a.1 < b.1)
    (hlow : ∀ a b, low a → a ≤ b → low b) (hhigh : ∀ a b, high a → b ≤ a → high b) :
    match (pairs.filter fun pair => low pair.1).head? with
    | none => between low high pairs = []
    | some first =>
      if high first.1 then
        between low high pairs = first :: between (fun key => first.1 < key) high pairs
      else between low high pairs = [] := by
  have hsplit : between low high pairs
      = (pairs.filter fun pair => low pair.1).filter fun pair => high pair.1 := by
    unfold between
    rw [List.filter_filter]
    apply List.filter_congr
    intro pair _
    rw [Bool.and_comm]
  have hsorted := h.filter fun pair => low pair.1
  rw [hsplit]
  cases hlows : pairs.filter fun pair => low pair.1 with
  | nil => rfl
  | cons first rest =>
    rw [hlows, List.pairwise_cons] at hsorted
    have hfirst : low first.1 := by
      have hmem : first ∈ pairs.filter fun pair => low pair.1 := by
        rw [hlows]
        exact List.mem_cons_self
      exact (List.mem_filter.mp hmem).2
    rw [List.head?_cons]
    show if high first.1 then _ else _
    by_cases hin : high first.1
    · rw [if_pos hin, List.filter_cons, if_pos hin]
      -- behind the first entry, the lower bound may be moved to it
      have hrest : (pairs.filter fun pair => decide (first.1 < pair.1)) = rest := by
        have hnarrow : (pairs.filter fun pair => decide (first.1 < pair.1))
            = (pairs.filter fun pair => low pair.1).filter
              fun pair => decide (first.1 < pair.1) := by
          rw [List.filter_filter]
          apply List.filter_congr
          intro pair _
          by_cases hlt : first.1 < pair.1
          · simp [hlt, hlow _ _ hfirst hlt.le]
          · simp [hlt]
        rw [hnarrow, hlows, List.filter_cons, if_neg (by simp), List.filter_eq_self]
        intro pair hpair
        simpa using hsorted.1 pair hpair
      unfold between
      rw [← hrest, List.filter_filter]
      congr 1
      apply List.filter_congr
      intro pair _
      rw [Bool.and_comm]
    · rw [if_neg hin, List.filter_eq_nil_iff]
      intro pair hpair hpin
      rcases List.mem_cons.mp hpair with rfl | hpair
      · exact hin hpin
      · exact hin (hhigh _ _ hpin (hsorted.1 pair hpair).le)

/-- The last entry below an upper bound is the last one between the bounds, or there is none. -/
lemma between_back (h : pairs.Pairwise fun a b => a.1 < b.1)
    (hlow : ∀ a b, low a → a ≤ b → low b) (hhigh : ∀ a b, high a → b ≤ a → high b) :
    match (pairs.filter fun pair => high pair.1).getLast? with
    | none => between low high pairs = []
    | some last =>
      if low last.1 then
        between low high pairs = between low (fun key => key < last.1) pairs ++ [last]
      else between low high pairs = [] := by
  have hsplit : between low high pairs
      = (pairs.filter fun pair => high pair.1).filter fun pair => low pair.1 := by
    unfold between
    rw [List.filter_filter]
  have hsorted := h.filter fun pair => high pair.1
  rw [hsplit]
  rcases List.eq_nil_or_concat' (pairs.filter fun pair => high pair.1) with hhighs | ⟨rest, last, hhighs⟩
  · rw [hhighs]
    rfl
  · rw [hhighs, List.pairwise_append] at hsorted
    have hlast : high last.1 := by
      have hmem : last ∈ pairs.filter fun pair => high pair.1 := by
        rw [hhighs]
        exact List.mem_append_right _ List.mem_cons_self
      exact (List.mem_filter.mp hmem).2
    rw [hhighs, List.getLast?_append, List.getLast?_singleton, Option.some_or]
    show if low last.1 then _ else _
    by_cases hin : low last.1
    · rw [if_pos hin, List.filter_append, List.filter_cons, if_pos hin, List.filter_nil]
      have hrest : (pairs.filter fun pair => decide (pair.1 < last.1)) = rest := by
        have hnarrow : (pairs.filter fun pair => decide (pair.1 < last.1))
            = (pairs.filter fun pair => high pair.1).filter
              fun pair => decide (pair.1 < last.1) := by
          rw [List.filter_filter]
          apply List.filter_congr
          intro pair _
          by_cases hlt : pair.1 < last.1
          · simp [hlt, hhigh _ _ hlast hlt.le]
          · simp [hlt]
        rw [hnarrow, hhighs, List.filter_append, List.filter_cons, if_neg (by simp),
          List.filter_nil, List.append_nil, List.filter_eq_self]
        intro pair hpair
        simpa using hsorted.2.2 pair hpair last List.mem_cons_self
      unfold between
      rw [← hrest, List.filter_filter]
    · rw [if_neg hin, List.filter_eq_nil_iff]
      intro pair hpair hpin
      rcases List.mem_append.mp hpair with hpair | hpair
      · exact hin (hlow _ _ hpin (hsorted.2.2 pair hpair last List.mem_cons_self).le)
      · rw [List.mem_singleton] at hpair
        subst hpair
        exact hin hpin

end Sorted

namespace Range

variable [LinearOrder K] {range : Range K V}

/-- The entries that a cursor has not yielded. -/
def rest (range : Range K V) : List (K × V) :=
  between (Tree.accepts range.start false) (Tree.accepts range.stop true) range.tree.root.pairs

lemma below_eq (key : K) (stop : Bound K) : below key stop = Tree.accepts stop true key := by
  cases stop <;> rfl

lemma above_eq (key : K) (start : Bound K) : above key start = Tree.accepts start false key := by
  cases start <;> rfl

/-- A step at the front yields the first entry that is left. -/
lemma next_spec (h : range.tree.root.Ordered) :
    range.rest = range.next.1.toList ++ range.next.2.rest
      ∧ (range.next.1 = none → range.rest = [] ∧ range.next.2 = range)
      ∧ range.next.2.tree = range.tree := by
  have hbetween := between_front (Tree.accepts range.start false) (Tree.accepts range.stop true)
    h.pairs (fun a b ha hab => Tree.accepts_of_le ha hab)
    fun a b ha hab => Tree.accepts_of_ge ha hab
  have hbound := Tree.bound_front range.start h none
  rw [Option.or_none] at hbound
  unfold next RankTree.bound
  rw [hbound]
  generalize (range.tree.root.pairs.filter fun pair =>
    Tree.accepts range.start false pair.1).head? = head at hbetween ⊢
  cases head with
  | none => exact ⟨rfl, fun _ => ⟨hbetween, rfl⟩, rfl⟩
  | some first =>
    simp only [below_eq] at hbetween ⊢
    split at hbetween
    · next hin =>
      rw [hin]
      refine ⟨?_, fun hnone => ?_, rfl⟩
      · show range.rest = first :: _
        unfold rest
        rw [hbetween]
        rfl
      · cases hnone
    · next hin =>
      rw [Bool.not_eq_true] at hin
      rw [hin]
      exact ⟨rfl, fun _ => ⟨hbetween, rfl⟩, rfl⟩

/-- A step at the back yields the last entry that is left. -/
lemma nextBack_spec (h : range.tree.root.Ordered) :
    range.rest = range.nextBack.2.rest ++ range.nextBack.1.toList
      ∧ (range.nextBack.1 = none → range.rest = [] ∧ range.nextBack.2 = range)
      ∧ range.nextBack.2.tree = range.tree := by
  have hbetween := between_back (Tree.accepts range.start false) (Tree.accepts range.stop true)
    h.pairs (fun a b ha hab => Tree.accepts_of_le ha hab)
    fun a b ha hab => Tree.accepts_of_ge ha hab
  have hbound := Tree.bound_back range.stop h none
  rw [Option.or_none] at hbound
  unfold nextBack RankTree.bound
  rw [hbound]
  generalize (range.tree.root.pairs.filter fun pair =>
    Tree.accepts range.stop true pair.1).getLast? = last at hbetween ⊢
  cases last with
  | none => exact ⟨(List.append_nil _).symm, fun _ => ⟨hbetween, rfl⟩, rfl⟩
  | some last =>
    simp only [above_eq] at hbetween ⊢
    split at hbetween
    · next hin =>
      rw [hin]
      refine ⟨?_, fun hnone => ?_, rfl⟩
      · show range.rest = _ ++ [last]
        unfold rest
        rw [hbetween]
        rfl
      · cases hnone
    · next hin =>
      rw [Bool.not_eq_true] at hin
      rw [hin]
      exact ⟨(List.append_nil _).symm, fun _ => ⟨hbetween, rfl⟩, rfl⟩

/-- The ends take entries away until none is left. -/
lemma drive_spec (h : range.tree.root.Ordered) (ends : List End) :
    range.rest = (range.drive ends).1 ++ (range.drive ends).2.2.rest
        ++ (range.drive ends).2.1.reverse
      ∧ (range.drive ends).2.2.tree = range.tree := by
  induction ends generalizing range with
  | nil => exact ⟨by simp [drive], rfl⟩
  | cons side ends ih =>
    cases side with
    | front =>
      obtain ⟨hrest, -, htree⟩ := range.next_spec h
      obtain ⟨hlast, htree'⟩ := @ih range.next.2 (by rwa [htree])
      refine ⟨?_, htree'.trans htree⟩
      show range.rest = range.next.1.toList ++ (range.next.2.drive ends).1
        ++ (range.next.2.drive ends).2.2.rest ++ (range.next.2.drive ends).2.1.reverse
      rw [hrest, hlast]
      simp only [List.append_assoc]
    | back =>
      obtain ⟨hrest, -, htree⟩ := range.nextBack_spec h
      obtain ⟨hlast, htree'⟩ := @ih range.nextBack.2 (by rwa [htree])
      refine ⟨?_, htree'.trans htree⟩
      show range.rest = (range.nextBack.2.drive ends).1 ++ (range.nextBack.2.drive ends).2.2.rest
        ++ (range.nextBack.1.toList ++ (range.nextBack.2.drive ends).2.1).reverse
      have hsingle : ∀ item : Option (K × V), item.toList.reverse = item.toList := by
        intro item
        cases item <;> rfl
      rw [hrest, hlast, List.reverse_append, hsingle]
      simp only [List.append_assoc]

/-- A step that yields nothing leaves nothing behind. -/
lemma pull_spec (h : range.tree.root.Ordered) (side : End) (hnone : (range.pull side).1 = none) :
    range.rest = [] := by
  cases side with
  | front => exact ((range.next_spec h).2.1 hnone).1
  | back => exact ((range.nextBack_spec h).2.1 hnone).1

/-- An exhausted cursor stays as it is. -/
lemma drive_of_exhausted (h : range.tree.root.Ordered) (hempty : range.rest = [])
    (ends : List End) : range.drive ends = ([], [], range) := by
  have hnext : range.next = (none, range) := by
    obtain ⟨hrest, hnone, -⟩ := range.next_spec h
    rw [hempty] at hrest
    have hitem : range.next.1 = none := by
      cases hitem : range.next.1 with
      | none => rfl
      | some pair =>
        rw [hitem] at hrest
        cases hrest
    exact Prod.ext hitem (hnone hitem).2
  have hback : range.nextBack = (none, range) := by
    obtain ⟨hrest, hnone, -⟩ := range.nextBack_spec h
    rw [hempty] at hrest
    have hitem : range.nextBack.1 = none := by
      cases hitem : range.nextBack.1 with
      | none => rfl
      | some pair =>
        rw [hitem] at hrest
        simp at hrest
    exact Prod.ext hitem (hnone hitem).2
  induction ends with
  | nil => rfl
  | cons side ends ih =>
    cases side with
    | front =>
      rw [drive, hnext, ih]
      rfl
    | back =>
      rw [drive, hback, ih]
      rfl

lemma takeFront_eq (h : range.tree.root.Ordered) {fuel : ℕ} (hfuel : range.rest.length < fuel) :
    range.takeFront fuel = range.rest := by
  induction fuel generalizing range with
  | zero => omega
  | succ fuel ih =>
    obtain ⟨hrest, hnone, htree⟩ := range.next_spec h
    rw [takeFront]
    split
    · next hnext =>
      rw [(hnone (by rw [hnext])).1]
    · next pair next hnext =>
      rw [hnext] at hrest htree
      rw [hrest] at hfuel ⊢
      rw [ih (by rwa [htree]) (by simpa using hfuel)]
      rfl

/-- `collect` yields everything that is left. -/
lemma collect_eq (h : range.tree.root.Ordered) : range.collect = range.rest := by
  apply range.takeFront_eq h
  have hlength := List.length_filter_le (fun pair : K × V =>
    Tree.accepts range.start false pair.1 && Tree.accepts range.stop true pair.1)
    range.tree.root.pairs
  rw [Tree.length_pairs] at hlength
  exact Nat.lt_succ_of_le hlength

end Range

/-! ## Single keys -/

namespace Tree

variable [LinearOrder K]

/-- `get` finds the value of a key. -/
lemma get_eq_some (key : K) (value : V) {tree : Tree K V} (h : tree.Ordered) :
    tree.get key = some value ↔ ∃ weight, (key, value, weight) ∈ tree.entries := by
  induction tree with
  | none => simp [get, entries]
  | node key' value' weight sum height left right ihl ihr =>
    obtain ⟨hleft, hright, hless, hmore⟩ := ordered_node.1 h
    rw [exists_mem_entries_node, get]
    rcases lt_trichotomy key key' with hlt | rfl | hgt
    · have hother : ¬ ∃ weight, (key, value, weight) ∈ right.entries :=
        not_exists.mpr fun _ hb => lt_asymm hlt (hmore _ hb)
      rw [compare_lt_iff_lt.mpr hlt]
      simp [ihl hleft, hlt.ne, hother]
    · have hl : ¬ ∃ weight, (key, value, weight) ∈ left.entries :=
        not_exists.mpr fun _ hb => lt_irrefl _ (hless _ hb)
      have hr : ¬ ∃ weight, (key, value, weight) ∈ right.entries :=
        not_exists.mpr fun _ hb => lt_irrefl _ (hmore _ hb)
      rw [compare_eq_iff_eq.mpr rfl]
      simp [hl, hr, eq_comm]
    · have hother : ¬ ∃ weight, (key, value, weight) ∈ left.entries :=
        not_exists.mpr fun _ hb => lt_asymm hgt (hless _ hb)
      rw [compare_gt_iff_gt.mpr hgt]
      simp [ihr hright, hgt.ne', hother]

/-- A block with its value changed, if it has the key. -/
def touch (key : K) (change : V → V) (block : Block K V) : Block K V :=
  if block.1 = key then (block.1, change block.2.1, block.2.2) else block

lemma touch_of_ne {key : K} (change : V → V) {blocks : List (Block K V)}
    (h : ∀ b ∈ blocks, b.1 ≠ key) : blocks.map (touch key change) = blocks := by
  conv_rhs => rw [← List.map_id blocks]
  apply List.map_congr_left
  intro block hblock
  exact if_neg (h block hblock)

/-- `get_mut` changes one value. -/
lemma entries_getMut (key : K) (change : V → V) {tree : Tree K V} (h : tree.Ordered) :
    (tree.getMut key change).entries = tree.entries.map (touch key change) := by
  induction tree with
  | none => rfl
  | node key' value weight sum height left right ihl ihr =>
    obtain ⟨hleft, hright, hless, hmore⟩ := ordered_node.1 h
    rw [getMut, entries, List.map_append, List.map_cons]
    rcases lt_trichotomy key key' with hlt | rfl | hgt
    · rw [compare_lt_iff_lt.mpr hlt]
      rw [touch_of_ne change fun b hb => (hlt.trans (hmore b hb)).ne', touch, if_neg hlt.ne',
        ← ihl hleft, entries]
    · rw [compare_eq_iff_eq.mpr rfl]
      rw [touch_of_ne change fun b hb => (hless b hb).ne,
        touch_of_ne change fun b hb => (hmore b hb).ne', touch, if_pos rfl, entries]
    · rw [compare_gt_iff_gt.mpr hgt]
      rw [touch_of_ne change fun b hb => ((hless b hb).trans hgt).ne, touch, if_neg hgt.ne,
        ← ihr hright, entries]

lemma depth_getMut (key : K) (change : V → V) (tree : Tree K V) :
    (tree.getMut key change).depth = tree.depth := by
  induction tree with
  | none => rfl
  | node key' value weight sum height left right ihl ihr =>
    rw [getMut]
    split <;> simp only [depth_node, ihl, ihr]

lemma total_getMut (key : K) (change : V → V) (tree : Tree K V) :
    (tree.getMut key change).total = tree.total := by
  induction tree with
  | none => rfl
  | node key' value weight sum height left right ihl ihr =>
    rw [getMut]
    split <;> simp only [total, ihl, ihr]

lemma sound_getMut (key : K) (change : V → V) {tree : Tree K V} (h : tree.Sound) :
    (tree.getMut key change).Sound := by
  induction tree with
  | none => trivial
  | node key' value weight sum height left right ihl ihr =>
    obtain ⟨hl, hr, hheight, hsum, hleft, hright⟩ := h
    rw [depth_node] at hheight
    rw [total] at hsum
    rw [getMut]
    split
    · refine ⟨?_, ?_, ?_, ?_, ihl hleft, hright⟩
      · rwa [depth_getMut]
      · rwa [depth_getMut]
      · rwa [depth_node, depth_getMut]
      · rwa [total, total_getMut]
    · refine ⟨?_, ?_, ?_, ?_, hleft, ihr hright⟩
      · rwa [depth_getMut]
      · rwa [depth_getMut]
      · rwa [depth_node, depth_getMut]
      · rwa [total, total_getMut]
    · exact ⟨hl, hr, hheight, hsum, hleft, hright⟩

lemma ordered_getMut (key : K) (change : V → V) {tree : Tree K V} (h : tree.Ordered) :
    (tree.getMut key change).Ordered := by
  have hkey : ∀ block : Block K V, (touch key change block).1 = block.1 := by
    intro block
    unfold touch
    split <;> rfl
  unfold Ordered
  rw [entries_getMut key change h, List.pairwise_map]
  exact h.imp fun hab => by rwa [hkey, hkey]

end Tree

/-! ## Sorted maps -/

variable [LinearOrder K]

/-- What a change does to a sorted map. -/
def OrderedMap.Change.reference (map : ExtTreeMap K V) : OrderedMap.Change K V → ExtTreeMap K V
  | .insert key value => map.insert key value
  | .remove key => map.erase key
  | .getMut key change => map.modify key change
  | .entry key make change => (map.insertIfNew key make).modify key change
  | .clear => ∅

/-- What a change does to a sorted set. -/
def OrderedSet.Change.reference (set : ExtTreeMap K Unit) : OrderedSet.Change K → ExtTreeMap K Unit
  | .insert key => set.insert key ()
  | .remove key => set.erase key
  | .extend keys => keys.foldl (fun set key => set.insert key ()) set
  | .splitOff start suffix =>
    set.filter fun key _ => if suffix then decide (start ≤ key) else decide (key < start)
  | .clear => ∅

/-- A key lies within the bounds of a range. -/
def Within (start stop : Bound K) (key : K) : Bool :=
  (match start with
    | .unbounded => true
    | .included low => decide (low ≤ key)
    | .excluded low => decide (low < key))
  && match stop with
    | .unbounded => true
    | .included high => decide (key ≤ high)
    | .excluded high => decide (key < high)

namespace OrderedMap

/-- A map in order that holds what a sorted map holds, every key with weight one. -/
structure Reflects (map : OrderedMap K V) (reference : ExtTreeMap K V) : Prop where
  sound : map.tree.root.Sound
  ordered : map.tree.root.Ordered
  contents : ∀ key value measure, (key, value, measure) ∈ map.tree.root.entries
    ↔ measure = weight ∧ reference[key]? = some value

variable {map : OrderedMap K V} {reference : ExtTreeMap K V}

lemma reflects_empty : Reflects ({} : OrderedMap K V) ∅ :=
  ⟨trivial, List.Pairwise.nil, fun key value measure => by simp [Tree.entries]⟩

lemma Reflects.congr (h : map.Reflects reference) {reference' : ExtTreeMap K V}
    (hsame : ∀ key : K, reference'[key]? = reference[key]?) : map.Reflects reference' :=
  ⟨h.sound, h.ordered, fun key value measure => by rw [h.contents, hsame]⟩

lemma Reflects.insert (h : map.Reflects reference) (key : K) (value : V) :
    (map.insert key value).1.Reflects (reference.insert key value) := by
  refine ⟨(Tree.sound_insert key value weight h.sound).1,
    Tree.ordered_insert key value weight h.ordered, fun k v m => ?_⟩
  show (k, v, m) ∈ (map.tree.root.insert key value weight).1.entries ↔ _
  rw [Tree.mem_entries_insert key value weight h.ordered, h.contents, ExtTreeMap.getElem?_insert]
  by_cases hkey : key = k
  · subst hkey
    simp [eq_comm, and_comm]
  · rw [if_neg (by rwa [compare_eq_iff_eq])]
    simp [Ne.symm hkey]

lemma Reflects.remove (h : map.Reflects reference) (key : K) :
    (map.remove key).1.Reflects (reference.erase key) := by
  refine ⟨(Tree.sound_remove key h.sound).1, Tree.ordered_remove key h.ordered, fun k v m => ?_⟩
  show (k, v, m) ∈ (map.tree.root.remove key).1.entries ↔ _
  rw [Tree.mem_entries_remove key h.ordered, h.contents, ExtTreeMap.getElem?_erase]
  by_cases hkey : key = k
  · subst hkey
    simp
  · rw [if_neg (by rwa [compare_eq_iff_eq])]
    simp [Ne.symm hkey]

lemma Reflects.getMut (h : map.Reflects reference) (key : K) (change : V → V) :
    (map.getMut key change).Reflects (reference.modify key change) := by
  refine ⟨Tree.sound_getMut key change h.sound, Tree.ordered_getMut key change h.ordered,
    fun k v m => ?_⟩
  show (k, v, m) ∈ (map.tree.root.getMut key change).entries ↔ _
  rw [Tree.entries_getMut key change h.ordered, List.mem_map, ExtTreeMap.getElem?_modify]
  by_cases hkey : key = k
  · subst hkey
    rw [if_pos (compare_eq_iff_eq.mpr rfl), Option.map_eq_some_iff]
    constructor
    · rintro ⟨⟨k, old, m'⟩, hmem, htouch⟩
      unfold Tree.touch at htouch
      split at htouch
      · next heq =>
        cases htouch
        obtain ⟨hm, hold⟩ := (h.contents _ _ _).mp hmem
        exact ⟨hm, old, hold, rfl⟩
      · next hne =>
        cases htouch
        exact absurd rfl hne
    · rintro ⟨rfl, old, hold, rfl⟩
      exact ⟨(key, old, weight), (h.contents _ _ _).mpr ⟨rfl, hold⟩, if_pos rfl⟩
  · rw [if_neg (by rwa [compare_eq_iff_eq]), ← h.contents]
    constructor
    · rintro ⟨⟨k', old, m'⟩, hmem, htouch⟩
      unfold Tree.touch at htouch
      split at htouch
      · next heq =>
        cases htouch
        exact absurd heq.symm hkey
      · cases htouch
        exact hmem
    · intro hmem
      exact ⟨(k, v, m), hmem, if_neg (Ne.symm hkey)⟩

lemma Reflects.get (h : map.Reflects reference) (key : K) : map.get key = reference[key]? := by
  apply Option.ext
  intro value
  show map.tree.root.get key = some value ↔ _
  rw [Tree.get_eq_some key value h.ordered]
  simp [h.contents]

lemma Reflects.orInsertWith (h : map.Reflects reference) (key : K) (make : V) (change : V → V) :
    (map.orInsertWith key make change).Reflects
      ((reference.insertIfNew key make).modify key change) := by
  have hcontains : map.containsKey key = true ↔ key ∈ reference := by
    rw [ExtTreeMap.mem_iff_isSome_getElem?, ← h.get]
    rfl
  unfold OrderedMap.orInsertWith
  apply Reflects.getMut
  by_cases hkey : key ∈ reference
  · rw [hcontains.mpr hkey]
    apply h.congr
    intro k
    rw [ExtTreeMap.getElem?_insertIfNew, if_neg fun hnew => hnew.2 hkey]
  · have hnot : map.containsKey key = false := by rwa [← Bool.not_eq_true, hcontains]
    rw [hnot]
    apply (h.insert key make).congr
    intro k
    rw [ExtTreeMap.getElem?_insertIfNew, ExtTreeMap.getElem?_insert]
    simp [hkey]

/-- Every change does to the map what it does to the sorted map. -/
lemma Reflects.change (h : map.Reflects reference) (change : Change K V) :
    (map.change change).Reflects (change.reference reference) := by
  cases change with
  | insert key value => exact h.insert key value
  | remove key => exact h.remove key
  | getMut key change => exact h.getMut key change
  | entry key make change => exact h.orInsertWith key make change
  | clear => exact reflects_empty

lemma Reflects.run (h : map.Reflects reference) (changes : List (Change K V)) :
    (changes.foldl OrderedMap.change map).Reflects (changes.foldl Change.reference reference) := by
  induction changes generalizing map reference with
  | nil => exact h
  | cons change changes ih => exact ih (h.change change)

/-- The map and the sorted map list the same entries in the same order. -/
lemma Reflects.pairs_eq (h : map.Reflects reference) :
    map.tree.root.pairs = reference.toList := by
  have hlist : reference.toList.Pairwise fun a b => a.1 < b.1 := by
    refine ExtTreeMap.ordered_keys_toList.imp ?_
    intro a b hab
    exact compare_lt_iff_lt.mp hab
  apply eq_of_sorted h.ordered.pairs hlist
  rintro ⟨key, value⟩
  rw [ExtTreeMap.mem_toList_iff_getElem?_eq_some, Tree.pairs, List.mem_map]
  constructor
  · rintro ⟨block, hblock, heq⟩
    cases heq
    exact ((h.contents _ _ _).mp hblock).2
  · intro hvalue
    exact ⟨(key, value, weight), (h.contents _ _ _).mpr ⟨rfl, hvalue⟩, rfl⟩

/-- What a new cursor is going to yield. -/
lemma Reflects.rest_range (h : map.Reflects reference) (start stop : Bound K) :
    (map.range start stop).rest = reference.toList.filter fun pair => Within start stop pair.1 := by
  show between _ _ map.tree.root.pairs = _
  rw [h.pairs_eq]
  apply List.filter_congr
  intro pair _
  cases start <;> cases stop <;> rfl

/-- Blocks of weight one are counted. -/
lemma Reflects.weigh_eq (h : map.Reflects reference) {blocks : List (Block K V)}
    (hsub : ∀ block ∈ blocks, block ∈ map.tree.root.entries) :
    weigh blocks = (blocks.length, blocks.length) := by
  induction blocks with
  | nil => rfl
  | cons block blocks ih =>
    have hweight : block.2.2 = weight :=
      ((h.contents _ _ _).mp (hsub block List.mem_cons_self)).1
    rw [weigh_cons, ih fun b hb => hsub b (List.mem_cons_of_mem _ hb), hweight, List.length_cons,
      Nat.add_comm]
    rfl

/-- Lengths are exact up to the largest number of the machine. -/
lemma Reflects.len_eq (h : map.Reflects reference) :
    map.len = min reference.size (2 ^ 64 - 1) := by
  have hlength : map.tree.root.entries.length = reference.size := by
    rw [← ExtTreeMap.length_toList, ← h.pairs_eq, Tree.pairs, List.length_map]
  show map.tree.root.measure.expanded.toNat = _
  rw [h.sound.measure_eq_cap, h.weigh_eq fun _ hb => hb, hlength]
  exact Measure.toNat_cap _

lemma Reflects.countBefore_eq (h : map.Reflects reference) (key : K) :
    (map.countBefore key).toNat
      = min (reference.toList.filter fun pair => pair.1 < key).length (2 ^ 64 - 1) := by
  have hcap := Tree.before_eq_cap key h.sound h.ordered 0
  rw [Measure.cap_zero, zero_add,
    h.weigh_eq fun b hb => (Tree.smaller_sublist _ _).subset hb] at hcap
  have hlength : (Tree.smaller key map.tree.root.entries).length
      = (reference.toList.filter fun pair => pair.1 < key).length := by
    rw [← h.pairs_eq, Tree.pairs, List.filter_map, List.length_map]
    rfl
  show (map.tree.root.before key {}).expanded.toNat = _
  rw [hcap, hlength]
  exact Measure.toNat_cap _

lemma Reflects.firstKeyValue_eq (h : map.Reflects reference) :
    map.firstKeyValue = reference.toList.head? := by
  have hbound := Tree.bound_front .unbounded h.ordered none
  rw [Option.or_none, h.pairs_eq] at hbound
  have hall : (reference.toList.filter fun pair => Tree.accepts .unbounded false pair.1)
      = reference.toList := List.filter_eq_self.mpr fun _ _ => rfl
  show map.tree.root.bound .unbounded false none = _
  rw [hbound, hall]

lemma Reflects.lastKeyValue_eq (h : map.Reflects reference) :
    map.lastKeyValue = reference.toList.getLast? := by
  have hbound := Tree.bound_back .unbounded h.ordered none
  rw [Option.or_none, h.pairs_eq] at hbound
  have hall : (reference.toList.filter fun pair => Tree.accepts .unbounded true pair.1)
      = reference.toList := List.filter_eq_self.mpr fun _ _ => rfl
  show map.tree.root.bound .unbounded true none = _
  rw [hbound, hall]

end OrderedMap

namespace OrderedSet

variable {set : OrderedSet K} {reference : ExtTreeMap K Unit}

lemma reflects_extend (h : set.map.Reflects reference) (keys : List K) :
    (set.extend keys).map.Reflects
      (keys.foldl (fun set key => set.insert key ()) reference) := by
  induction keys generalizing set reference with
  | nil => exact h
  | cons key keys ih => exact @ih (set.insert key).1 _ (h.insert key ())

lemma reflects_removeAll (h : set.map.Reflects reference) (keys : List K) :
    (keys.foldl (fun set key => (set.remove key).1) set).map.Reflects
      (keys.foldl (fun set key => set.erase key) reference) := by
  induction keys generalizing set reference with
  | nil => exact h
  | cons key keys ih => exact @ih (set.remove key).1 _ (h.remove key)

lemma getElem?_foldl_insert (keys : List K) (reference : ExtTreeMap K Unit) (key : K) :
    (keys.foldl (fun set key => set.insert key ()) reference)[key]?
      = if key ∈ keys then some () else reference[key]? := by
  induction keys generalizing reference with
  | nil => simp
  | cons first keys ih =>
    rw [List.foldl_cons, ih, ExtTreeMap.getElem?_insert]
    by_cases hfirst : first = key
    · simp [hfirst]
    · simp [hfirst, Ne.symm hfirst]

lemma getElem?_foldl_erase (keys : List K) (reference : ExtTreeMap K Unit) (key : K) :
    (keys.foldl (fun set key => set.erase key) reference)[key]?
      = if key ∈ keys then none else reference[key]? := by
  induction keys generalizing reference with
  | nil => simp
  | cons first keys ih =>
    rw [List.foldl_cons, ih, ExtTreeMap.getElem?_erase]
    by_cases hfirst : first = key
    · simp [hfirst]
    · simp [hfirst, Ne.symm hfirst]

/-- The two parts of a split. -/
lemma reflects_splitOff (h : set.map.Reflects reference) (start : K) :
    (set.splitOff start).1.map.Reflects (reference.filter fun key _ => key < start)
      ∧ (set.splitOff start).2.map.Reflects (reference.filter fun key _ => start ≤ key) := by
  have hkeys : ∀ key, key ∈ (set.map.range (.included start) .unbounded).collect.map Prod.fst
      ↔ reference[key]? = some () ∧ start ≤ key := by
    intro key
    have hcollect : (set.map.range (.included start) .unbounded).collect
        = (set.map.range (.included start) .unbounded).rest := Range.collect_eq h.ordered
    rw [hcollect, h.rest_range, List.mem_map]
    constructor
    · rintro ⟨⟨k, u⟩, hmem, rfl⟩
      obtain ⟨hpair, hbounds⟩ := List.mem_filter.mp hmem
      rw [ExtTreeMap.mem_toList_iff_getElem?_eq_some] at hpair
      exact ⟨hpair, by simpa [Within] using hbounds⟩
    · rintro ⟨hvalue, hle⟩
      refine ⟨(key, ()), List.mem_filter.mpr ⟨?_, by simpa [Within] using hle⟩, rfl⟩
      rwa [ExtTreeMap.mem_toList_iff_getElem?_eq_some]
  constructor
  · apply (reflects_removeAll h _).congr
    intro key
    rw [getElem?_foldl_erase, ExtTreeMap.getElem?_filter']
    by_cases hle : start ≤ key
    · cases hvalue : reference[key]? <;> simp [hkeys, hvalue, hle]
    · cases hvalue : reference[key]? <;> simp [hkeys, hvalue, hle, lt_of_not_ge hle]
  · apply (reflects_extend OrderedMap.reflects_empty _).congr
    intro key
    rw [getElem?_foldl_insert, ExtTreeMap.getElem?_filter']
    by_cases hle : start ≤ key
    · cases hvalue : reference[key]? <;> simp [hkeys, hvalue, hle]
    · cases hvalue : reference[key]? <;> simp [hkeys, hvalue, hle]

lemma reflects_change (h : set.map.Reflects reference) (change : Change K) :
    (set.change change).map.Reflects (change.reference reference) := by
  cases change with
  | insert key => exact h.insert key ()
  | remove key => exact h.remove key
  | extend keys => exact reflects_extend h keys
  | splitOff start suffix =>
    cases suffix with
    | false => exact (reflects_splitOff h start).1
    | true => exact (reflects_splitOff h start).2
  | clear => exact OrderedMap.reflects_empty

lemma reflects_run (h : set.map.Reflects reference) (changes : List (Change K)) :
    (changes.foldl OrderedSet.change set).map.Reflects
      (changes.foldl Change.reference reference) := by
  induction changes generalizing set reference with
  | nil => exact h
  | cons change changes ih => exact ih (reflects_change h change)

lemma iter_eq (h : set.map.Reflects reference) : set.iter = reference.toList.map Prod.fst := by
  have hcollect : (set.map.range .unbounded .unbounded).collect
      = (set.map.range .unbounded .unbounded).rest := Range.collect_eq h.ordered
  unfold iter
  rw [hcollect, h.rest_range, List.filter_eq_self.mpr]
  intro pair _
  rfl

end OrderedSet

/-- What interleavings of steps at the two ends yield: always, without repetition, a first and a
last part of the expected entries, and all of them once a step yields nothing; from then on nothing
is yielded. -/
def Range.Yields (range : Range K V) (expected : List (K × V)) : Prop :=
  ∀ ends, (∃ rest, (range.drive ends).1 ++ rest ++ (range.drive ends).2.1.reverse = expected)
    ∧ ((range.drive ends).1 ++ (range.drive ends).2.1.reverse).Nodup
    ∧ ∀ side, ((range.drive ends).2.2.pull side).1 = none →
      (range.drive ends).1 ++ (range.drive ends).2.1.reverse = expected
      ∧ ∀ later, (range.drive ends).2.2.drive later = ([], [], (range.drive ends).2.2)

lemma Range.yields_rest {range : Range K V} (h : range.tree.root.Ordered) :
    range.Yields range.rest := by
  intro ends
  obtain ⟨hrest, htree⟩ := range.drive_spec h ends
  have hordered : (range.drive ends).2.2.tree.root.Ordered := by rwa [htree]
  have hnodup : range.rest.Nodup := by
    refine (h.pairs.filter _).imp ?_
    rintro a b hab rfl
    exact lt_irrefl _ hab
  refine ⟨⟨_, hrest.symm⟩, ?_, fun side hnone => ?_⟩
  · rw [hrest] at hnodup
    refine hnodup.sublist (List.Sublist.append ?_ (List.Sublist.refl _))
    exact List.sublist_append_left _ _
  · have hempty := Range.pull_spec hordered side hnone
    refine ⟨?_, Range.drive_of_exhausted hordered hempty⟩
    rw [hrest, hempty, List.append_nil]

/-- A map after some changes. -/
def OrderedMap.after (changes : List (OrderedMap.Change K V)) : OrderedMap K V :=
  changes.foldl OrderedMap.change {}

/-- A sorted map after the same changes. -/
def OrderedMap.sorted (changes : List (OrderedMap.Change K V)) : ExtTreeMap K V :=
  changes.foldl OrderedMap.Change.reference ∅

/-- A set after some changes. -/
def OrderedSet.after (changes : List (OrderedSet.Change K)) : OrderedSet K :=
  changes.foldl OrderedSet.change {}

/-- A sorted set after the same changes. -/
def OrderedSet.sorted (changes : List (OrderedSet.Change K)) : ExtTreeMap K Unit :=
  changes.foldl OrderedSet.Change.reference ∅

/-- Double-ended ranges are exact. After any changes of the empty map and for any bounds, a range
yields the entries of the sorted map within the bounds, however the steps at its two ends are
interleaved. Lengths, counts, first and last entry and the parts of a split set are those of the
sorted map. -/
theorem OrderedMap.ranges_exact (changes : List (OrderedMap.Change K V))
    (setChanges : List (OrderedSet.Change K)) :
    (∀ start stop, ((OrderedMap.after changes).range start stop).Yields
      ((OrderedMap.sorted changes).toList.filter fun pair => Within start stop pair.1))
    ∧ (OrderedMap.after changes).len = min (OrderedMap.sorted changes).size (2 ^ 64 - 1)
    ∧ (∀ key, ((OrderedMap.after changes).countBefore key).toNat
      = min ((OrderedMap.sorted changes).toList.filter fun pair => pair.1 < key).length
        (2 ^ 64 - 1))
    ∧ (OrderedMap.after changes).firstKeyValue = (OrderedMap.sorted changes).toList.head?
    ∧ (OrderedMap.after changes).lastKeyValue = (OrderedMap.sorted changes).toList.getLast?
    ∧ ∀ start,
      ((OrderedSet.after setChanges).splitOff start).1.iter
        = ((OrderedSet.sorted setChanges).filter fun key _ => key < start).toList.map Prod.fst
      ∧ ((OrderedSet.after setChanges).splitOff start).2.iter
        = ((OrderedSet.sorted setChanges).filter fun key _ => start ≤ key).toList.map
          Prod.fst := by
  have hmap : (OrderedMap.after changes).Reflects (OrderedMap.sorted changes) :=
    OrderedMap.reflects_empty.run changes
  have hset : (OrderedSet.after setChanges).map.Reflects (OrderedSet.sorted setChanges) :=
    OrderedSet.reflects_run OrderedMap.reflects_empty setChanges
  refine ⟨fun start stop => ?_, hmap.len_eq, hmap.countBefore_eq, hmap.firstKeyValue_eq,
    hmap.lastKeyValue_eq, fun start => ?_⟩
  · rw [← hmap.rest_range]
    exact Range.yields_rest hmap.ordered
  · obtain ⟨hstay, hgo⟩ := OrderedSet.reflects_splitOff hset start
    exact ⟨OrderedSet.iter_eq hstay, OrderedSet.iter_eq hgo⟩

end EditChain.IndexPages
