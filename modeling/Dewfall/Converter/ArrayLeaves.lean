import Dewfall.Converter.ArrayRuns

/-! The leaves that a walk over the arrays comes to, and the leaves of the nested tree: they hold the same subsets, each
in one place. Inner nodes and collapsing are not treated here. -/
namespace Dewfall.ArrayLeaves
open General General.Cells General.Blocks StorageMap PointSplitter MortonTree TreeReparent ArrayBuild ArrayForm ArrayNest
  ArrayHang ArrayRuns
open TreeBuild (Octree isLeafNode newRegistry)
open TreeInsert (Octree.isNode)
open TreeBuildRuns
open LodWork (nodeAt dataAt treeLevelToLod nodeMinOf)

/-! ## Lists with one element that is wanted -/

theorem filterNone {α β : Type} {f : α → β} {want : β → Bool} {l : List α} (none_ : (l.map f).filter want = [])
    {k : Nat} {a : α} (at_ : l[k]? = some a) : want (f a) = false := by
  have all := List.filter_eq_nil_iff.mp none_ (f a) (List.mem_map_of_mem (List.mem_of_getElem? at_))
  exact Bool.eq_false_iff.mpr all

theorem filterOne {α β : Type} {f : α → β} {want : β → Bool} {l : List α} {x : β} (one : (l.map f).filter want = [x]) :
    ∃ (k : Nat) (a : α), l[k]? = some a ∧ f a = x ∧ want x = true ∧
      ∀ (k' : Nat) (a' : α), l[k']? = some a' → want (f a') = true → k' = k := by
  induction l with
  | nil => cases one
  | cons a l ih =>
    rw [List.map_cons, List.filter_cons] at one
    split at one
    · rename_i wanted
      obtain ⟨rfl, rest⟩ := List.cons.inj one
      refine ⟨0, a, rfl, rfl, wanted, fun k' a' at_ want' => ?_⟩
      cases k' with
      | zero => rfl
      | succ k' =>
        rw [filterNone rest at_] at want'
        cases want'
    · rename_i other
      obtain ⟨k, b, at_, same, wanted, unique⟩ := ih one
      refine ⟨k + 1, b, at_, same, wanted, fun k' a' at' want' => ?_⟩
      cases k' with
      | zero =>
        cases at'
        exact absurd want' other
      | succ k' => exact congrArg (· + 1) (unique k' a' at' want')

theorem flatMapFilter {α β : Type} [DecidableEq α] {f : α → List β} {want : β → Bool} {l : List α} (once : l.Nodup) {x : β}
    (one : (l.flatMap f).filter want = [x]) :
    ∃ a ∈ l, (f a).filter want = [x] ∧ ∀ b ∈ l, b ≠ a → (f b).filter want = [] := by
  induction l with
  | nil => cases one
  | cons a l ih =>
    obtain ⟨fresh, once⟩ := List.nodup_cons.mp once
    rw [List.flatMap_cons, List.filter_append] at one
    rcases List.append_eq_singleton_iff.mp one with ⟨first, rest⟩ | ⟨first, rest⟩
    · obtain ⟨b, mem, here, others⟩ := ih once rest
      refine ⟨b, List.mem_cons_of_mem _ mem, here, fun c there apart => ?_⟩
      rcases List.mem_cons.mp there with rfl | later
      · exact first
      · exact others c later apart
    · refine ⟨a, List.mem_cons_self, first, fun b there apart => ?_⟩
      have later := (List.mem_cons.mp there).resolve_left apart
      rw [List.filter_flatMap] at rest
      exact List.flatMap_eq_nil_iff.mp rest b later

/-! ## Places of leaves -/

structure LeafAt (r : Registry) (start q : Position) (k : Nat) (p : Subset) : Prop where
  way : ∃ octants, walk r start octants = some q
  leaf : ∃ t, r.get q.tree = some t ∧ nodeAt t q.level q.index = some 0
  held : ∃ data, dataIn r q = some data ∧ data.data[k]? = some p

-- By its tree, its level and its name.
def CellAt (r : Registry) (q : Position) (exponent min : Nat) : Prop :=
  ∃ t name, r.get q.tree = some t ∧ nameAt t q = some name ∧ exponent = treeLevelToLod t.magnitude q.level + 1 ∧
    cellOf t name = min

section
variable {r : Registry} {q : Position} {lod : Nat} {t : Tree}

theorem childOctant (wired : Wired r) (here : At r q lod t) {o : Nat} {c : Position} (child : toChild r q o = some c) :
    o < 8 := by
  rw [childOf here.found] at child
  obtain ⟨x, index, _⟩ := Option.bind_eq_some_iff.mp child
  obtain ⟨node, there, bit, _⟩ := (wired.formed here.found).childFound here.level index
  have small := (wired.formed here.found).masks q.level here.level node (List.mem_of_getElem? there)
  by_contra beyond
  rw [Nat.testBit_lt_two_pow (small.trans_le (show 2 ^ 8 ≤ 2 ^ o from
    Nat.pow_le_pow_right (by decide) (Nat.le_of_not_lt beyond)))] at bit
  cases bit

-- The child of an octant lies where the octant does, in the node's tree or as a tree of its own.
theorem childCell (wired : Wired r) (here : At r q (lod + 1) t) {name min i : Nat} (named : nameAt t q = some name)
    (cell : cellOf t name = min) (aligned : Aligned (lod + 2) min) (octant : i < 8) {c : Position}
    (child : toChild r q i = some c) :
    ∃ s name', At r c lod s ∧ nameAt s c = some name' ∧ cellOf s name' = Cells.child (lod + 1) min i := by
  obtain ⟨below, s, equal, there⟩ := wired.childAt here octant child
  cases equal
  have formed := wired.formed here.found
  have within : cellOf t name ||| i <<< (treeLevelToLod t.magnitude q.level * 3) = Cells.child (lod + 1) min i := by
    rw [cell, ← here.lod]
    exact bitsApart aligned octant
  have place := child
  rw [childOf here.found] at place
  obtain ⟨x, index, place⟩ := Option.bind_eq_some_iff.mp place
  split at place
  · rename_i inner
    cases place
    obtain rfl : t = s := Option.some.inj (here.found.symm.trans there.found)
    exact ⟨t, _, there, formed.childName inner octant index named, (cellChild inner octant).trans within⟩
  · rename_i last
    obtain ⟨sub, _, rfl⟩ := Option.map_eq_some_iff.mp place
    have level : q.level = 4 := by
      have less := here.level
      omega
    have min_ : s.mortonMin = Cells.child (lod + 1) min i :=
      (subTreeMin wired here level octant named child there.found).trans within
    exact ⟨s, _, there, rootNamed (wired.formed there.found) sub, (cellRoot s).trans min_⟩

end

theorem walkCons {r : Registry} {q q' : Position} {o : Nat} {octants : List Nat} (way : walk r q (o :: octants) = some q') :
    ∃ c, toChild r q o = some c ∧ walk r c octants = some q' := by
  unfold walk at way
  rw [List.foldlM_cons] at way
  exact Option.bind_eq_some_iff.mp way

structure OnePlace (r : Registry) (start : Position) (want : Subset → Bool) (leaf : LeafRecord) (q : Position) (k : Nat) :
    Prop where
  there : LeafAt r start q k leaf.subset
  cell : CellAt r q leaf.exponent leaf.min
  only : ∀ q' k' p, LeafAt r start q' k' p → want p = true → q' = q ∧ k' = k

-- By induction on the nested tree, over the children of a node.
theorem leavesPlaced {r : Registry} (wired : Wired r) (want : Subset → Bool) {n : Octree} {q : Position} {lod min name tree : Nat}
    {t : Tree} (here : At r q lod t) (nests : Nests r n q) (named : nameAt t q = some name) (cell : cellOf t name = min)
    (aligned : Aligned (lod + 1) min) :
    ((leaves tree n lod min).filter (fun l => want l.subset) = [] → ∀ q' k p, LeafAt r q q' k p → want p = false) ∧
      ∀ leaf, (leaves tree n lod min).filter (fun l => want l.subset) = [leaf] → ∃ q' k, OnePlace r q want leaf q' k := by
  induction n generalizing q lod min name tree t with
  | missing => exact nests.elim
  | tree info root ih =>
    obtain ⟨_, _, _, _, under⟩ := nests
    exact ih here under named cell aligned
  | node data children ih =>
    obtain ⟨own, missing, below⟩ := nestsNode.mp nests
    obtain ⟨node, there⟩ := ArrayGrow.atHere here
    have bits : ∀ {i}, i < 8 → node.testBit i = (children i).present := by
      intro i octant
      rw [wired.bit here there octant]
      cases child : toChild r q i with
      | none => rw [missing i octant child]; rfl
      | some c => rw [nestsPresent (below i octant c child).2]; rfl
    unfold leaves
    by_cases leaf : isLeafNode children = true
    · rw [if_pos leaf]
      have noWay : ∀ {o c}, toChild r q o = some c → False := by
        intro o c child
        have octant := childOctant wired here child
        have present := nestsPresent (below o octant c child).2
        rw [TreeInsert.leafMissing leaf octant] at present
        cases present
      have stay : ∀ {q' k p}, LeafAt r q q' k p → q' = q ∧ data.data[k]? = some p := by
        rintro q' k p ⟨⟨octants, way⟩, _, d, known, at_⟩
        cases octants with
        | nil =>
          cases way
          rw [own] at known
          cases known
          exact ⟨rfl, at_⟩
        | cons o octants =>
          obtain ⟨c, child, _⟩ := walkCons way
          exact (noWay child).elim
      have zero : node = 0 := by
        have small := (wired.formed here.found).masks q.level here.level node (List.mem_of_getElem? there)
        refine (wideNone node small).mp (List.length_eq_zero_iff.mpr (List.filter_eq_nil_iff.mpr fun i mem => ?_))
        have octant := List.mem_range.mp mem
        rw [bits octant, TreeInsert.leafMissing leaf octant]
        exact Bool.false_ne_true
      refine ⟨fun none_ q' k p at_ => ?_, fun x one => ?_⟩
      · exact filterNone none_ (stay at_).2
      · obtain ⟨k, p, at_, rfl, wanted, unique⟩ := filterOne one
        refine ⟨q, k, ⟨⟨[], rfl⟩, ⟨t, here.found, zero ▸ there⟩, data, own, at_⟩,
          ⟨t, name, here.found, named, ?_, cell⟩, fun q' k' p' at' want' => ?_⟩
        · rw [← here.lod]
        · obtain ⟨rfl, held⟩ := stay at'
          exact ⟨rfl, unique k' p' held want'⟩
    · rw [if_neg leaf]
      have inner : isLeafNode children = false := Bool.eq_false_iff.mpr leaf
      obtain ⟨i0, octant0, present0⟩ := TreeDescend.innerChild inner
      have some_ : node ≠ 0 := by
        rintro rfl
        have bit := bits octant0
        rw [present0, Nat.zero_testBit] at bit
        cases bit
      have positive : ∃ m, lod = m + 1 := by
        have way := bits octant0
        rw [present0, wired.bit here there octant0] at way
        obtain ⟨c, child⟩ := Option.isSome_iff_exists.mp way
        obtain ⟨m, _, same, _⟩ := wired.childAt here octant0 child
        exact ⟨m, same⟩
      obtain ⟨m, rfl⟩ := positive
      rw [Nat.add_sub_cancel]
      -- A leaf below is below one of the children.
      have down : ∀ {q' k p}, LeafAt r q q' k p → ∃ o < 8, ∃ c, toChild r q o = some c ∧ LeafAt r c q' k p := by
        rintro q' k p ⟨⟨octants, way⟩, isLeaf, held⟩
        cases octants with
        | nil =>
          cases way
          obtain ⟨u, found, zero⟩ := isLeaf
          obtain rfl : t = u := Option.some.inj (here.found.symm.trans found)
          exact absurd (Option.some.inj (there.symm.trans zero)) some_
        | cons o octants =>
          obtain ⟨c, child, rest⟩ := walkCons way
          exact ⟨o, childOctant wired here child, c, child, ⟨octants, rest⟩, isLeaf, held⟩
      have each : ∀ {o c}, o < 8 → toChild r q o = some c →
          ((leaves tree (children o) m (child (m + 1) min o)).filter (fun l => want l.subset) = [] →
            ∀ q' k p, LeafAt r c q' k p → want p = false) ∧
          ∀ leaf, (leaves tree (children o) m (child (m + 1) min o)).filter (fun l => want l.subset) = [leaf] →
            ∃ q' k, OnePlace r c want leaf q' k := by
        intro o c octant found
        obtain ⟨s, name', at_, named', cell'⟩ := childCell wired here named cell aligned octant found
        exact ih o at_ (below o octant c found).2 named' cell' (childAligned aligned)
      refine ⟨fun none_ q' k p at_ => ?_, fun x one => ?_⟩
      · obtain ⟨o, octant, c, found, at'⟩ := down at_
        rw [List.filter_flatMap] at none_
        exact (each octant found).1 (List.flatMap_eq_nil_iff.mp none_ o (List.mem_range.mpr octant)) q' k p at'
      · obtain ⟨o, mem, here_, others⟩ := flatMapFilter List.nodup_range one
        have octant := List.mem_range.mp mem
        have found : ∃ c, toChild r q o = some c := by
          cases child : toChild r q o with
          | some c => exact ⟨c, rfl⟩
          | none =>
            rw [missing o octant child] at here_
            cases here_
        obtain ⟨c, found⟩ := found
        obtain ⟨q', k, place⟩ := (each octant found).2 x here_
        obtain ⟨octants, way⟩ := place.there.way
        refine ⟨q', k, ⟨⟨o :: octants, ?_⟩, place.there.leaf, place.there.held⟩, place.cell, fun q2 k2 p2 at2 want2 => ?_⟩
        · unfold walk at way ⊢
          rw [List.foldlM_cons, found]
          exact way
        · obtain ⟨o2, octant2, c2, found2, below2⟩ := down at2
          by_cases same : o2 = o
          · subst same
            rw [found] at found2
            cases found2
            exact place.only q2 k2 p2 below2 want2
          · rw [(each octant2 found2).1 (others o2 (List.mem_range.mpr octant2) same) q2 k2 p2 below2] at want2
            cases want2

/-! ## All units -/

def insertAll (reads : Location → Option Points) (limit : Nat) (batches : List Batch) : Option Trees :=
  batches.foldlM (fun w b => treeAddPoints reads w (header b) b.attributesId b.locations) (newTrees limit)

section
variable {reads : Location → Option Points} {limit : Nat} {batches : List Batch}

theorem allFollow (accepted : Accepted reads batches) (fits : Fits limit batches) (pointed : ∀ b ∈ batches, b.codes ≠ []) :
    ∃ w r base, insertAll reads limit batches = some w ∧ addAll reads limit batches = some r ∧ Mirrors w r ∧
      TreeRegistry.Ground (unitsOf batches) base ∧
      Registered (unitsOf batches) limit base ((batches.map Batch.id).reverse ++ []) r := by
  obtain ⟨base, ground, near⟩ := groundOf fits
  obtain ⟨w, r, flat, nested, registered, mirrors⟩ := runFollows accepted fits pointed ground near
    (newRegistered (unitsOf batches) limit base) (newMirrors limit) (fun _ mem => mem)
    ⟨accepted.distinct, fun _ _ => List.not_mem_nil⟩
  exact ⟨w, r, base, flat, nested, mirrors, ground, registered⟩

-- The arrays that the units are put into are those of the nested tree, node for node.
theorem arraysMirror (accepted : Accepted reads batches) (fits : Fits limit batches) (pointed : ∀ b ∈ batches, b.codes ≠ []) :
    ∃ w r, insertAll reads limit batches = some w ∧ addAll reads limit batches = some r ∧ Mirrors w r := by
  obtain ⟨w, r, _, flat, nested, mirrors, _⟩ := allFollow accepted fits pointed
  exact ⟨w, r, flat, nested, mirrors⟩

def takes (id : InputId) (j : Nat) (p : Subset) : Bool := p.inputId = id ∧ p.offset ≤ j ∧ j < p.offset + p.count

theorem pointsOnce (accepted : Accepted reads batches) (fits : Fits limit batches) (pointed : ∀ b ∈ batches, b.codes ≠ []) :
    ∃ w, insertAll reads limit batches = some w ∧ ∀ b ∈ batches, ∀ j (inside : j < b.codes.length), ∃ id q k p,
      w.root = some id ∧ LeafAt w.registry (rootOf id) q k p ∧ takes b.id j p = true ∧
      (∃ exponent min, CellAt w.registry q exponent min ∧ Has exponent min b.codes[j]) ∧
      ∀ q' k' p', LeafAt w.registry (rootOf id) q' k' p' → takes b.id j p' = true → q' = q ∧ k' = k := by
  obtain ⟨w, r, base, flat, _, mirrors, ground, registered⟩ := allFollow accepted fits pointed
  refine ⟨w, flat, fun b mem j inside => ?_⟩
  have there : b.id ∈ (batches.map Batch.id).reverse ++ [] := by
    rw [List.append_nil, List.mem_reverse]
    exact List.mem_map_of_mem mem
  obtain ⟨leaf, one, has⟩ := (registeredPartitioned accepted registered mem there).once j inside
  have root := mirrors.root
  cases known : r.root with
  | none =>
    unfold leavesOf at one
    rw [known] at one
    cases one
  | some top =>
    rw [known] at root
    unfold leavesOf at one
    rw [known] at one
    obtain ⟨id, t, rooted, stands, _⟩ := root
    have trees := registered.trees
    rw [known] at trees
    have aligned := trees.1.aligned
    have formed := mirrors.wired.formed stands.found
    have here : At w.registry (rootOf id) top.lod t := rootLod stands ▸ mirrors.wired.rootHere stands.found
    obtain ⟨q, k, place⟩ := (leavesPlaced mirrors.wired (takes b.id j) here stands.nests (rootNamed formed id)
      ((cellRoot t).trans stands.mortonMin) aligned).2 leaf one
    have found : leaf ∈ (leaves top.info.id top.top top.lod top.mortonMin).filter (·.covers b.id j) := by
      rw [show _ = [leaf] from one]
      exact List.mem_singleton_self leaf
    have taken : takes b.id j leaf.subset = true := (List.mem_filter.mp found).2
    exact ⟨id, q, k, leaf.subset, rooted, place.there, taken, ⟨_, _, place.cell, has⟩, place.only⟩

end

/-! Leaves of three points: the first unit is split to its last digits, and the second has the root re-parented. -/

def twoUnits : List Batch := [batchOf 1 [1, 2, 3, 9], batchOf 3 [70, 2 ^ 40]]

theorem twoAccepted : Accepted (readFrom twoUnits) twoUnits := by
  refine ⟨by decide, by decide, by decide, fun b mem => ?_⟩
  simp only [twoUnits, List.mem_cons, List.not_mem_nil, or_false] at mem
  rcases mem with rfl | rfl
  · exact ⟨⟨0, 1, 1⟩, rfl, by decide⟩
  · exact ⟨⟨0, 3, 1⟩, rfl, by decide⟩

theorem twoFit : Fits 3 twoUnits := by
  refine ⟨fun min aligned => ?_, ⟨0, by decide, by decide⟩, by decide⟩
  obtain ⟨q, rfl⟩ := aligned
  simp only [twoUnits, batchOf, codesIn, General.SortedWindows.between, List.map_cons, List.map_nil, List.sum_cons, List.sum_nil,
    List.filter_cons, List.filter_nil, decide_eq_true_eq]
  split <;> split <;> split <;> split <;> split <;> split <;> simp only [List.length_cons, List.length_nil] <;> omega

theorem twoUnitsMirror : ∃ w r, insertAll (readFrom twoUnits) 3 twoUnits = some w ∧
    addAll (readFrom twoUnits) 3 twoUnits = some r ∧
    Mirrors w r := arraysMirror twoAccepted twoFit (by decide)

theorem twoUnitsOnce : ∃ w, insertAll (readFrom twoUnits) 3 twoUnits = some w ∧ ∀ b ∈ twoUnits, ∀ j (inside : j < b.codes.length),
    ∃ id q k p, w.root = some id ∧ LeafAt w.registry (rootOf id) q k p ∧ takes b.id j p = true ∧
      (∃ exponent min, CellAt w.registry q exponent min ∧ Has exponent min b.codes[j]) ∧
      ∀ q' k' p', LeafAt w.registry (rootOf id) q' k' p' → takes b.id j p' = true → q' = q ∧ k' = k :=
  pointsOnce twoAccepted twoFit (by decide)

end Dewfall.ArrayLeaves
