import Dewfall.Converter.ArrayNest

/-! The changes that an insertion is made of, over the registry: a node's data, a child or a sub-tree more, and what a
tree keeps beside its arrays. Each leaves alone what does not lie below the node. -/
namespace Dewfall.ArrayGrow
open General.Blocks StorageMap PointSplitter MortonTree TreeReparent ArrayBuild ArrayForm ArrayNest
open TreeBuild (Octree TreeInfo newTree emptyNode)
open TreeInsert (Octree.isNode)
open LodWork (nodeAt dataAt setData setDataAt setDataSame treeLevelToLod nodeMinOf)

/-! ## A tree that is replaced -/

-- The sub-trees keep their places, and the nodes above them their names.
structure SameCells (t t' : Tree) : Prop where
  subTrees : t'.subTrees = t.subTrees
  cells : ∀ k i x name, childIndex t' 4 k i = some x → (t'.levels 4).nodeIds[k]? = some name →
    ∃ k', childIndex t 4 k' i = some x ∧ (t.levels 4).nodeIds[k']? = some name

section
variable {r : Registry} {t t' : Tree} {id : Nat}

theorem linkedSet (found : r.get id = some t) (same : SameTree t t') {u s : Tree} {x sub : Nat} (linked : Linked r u x sub s) :
    ∃ s', Linked (r.set id t') u x sub s' := by
  have gets := getSet (getInside found) t' sub
  by_cases own : sub = id
  · subst own
    obtain rfl : t = s := Option.some.inj (found.symm.trans linked.found)
    rw [if_pos rfl] at gets
    exact ⟨t', gets, same.magnitude ▸ linked.magnitude, fun k i name index octant named =>
      same.mortonMin.trans (linked.min k i name index octant named)⟩
  · rw [if_neg own] at gets
    exact ⟨s, gets.trans linked.found, linked.magnitude, linked.min⟩

theorem wiredSet (wired : Wired r) (found : r.get id = some t) (same : SameTree t t') (formed : Formed t')
    (cells : SameCells t t') : Wired (r.set id t') := by
  have gets := getSet (getInside found) t'
  have subTrees : ∀ {other u}, (r.set id t').get other = some u → ∃ v, r.get other = some v ∧ u.subTrees = v.subTrees := by
    intro other u here
    rw [gets] at here
    split at here
    · rename_i own
      cases here
      exact ⟨t, own ▸ found, cells.subTrees⟩
    · exact ⟨u, here, rfl⟩
  refine ⟨?_, fun {other u} here => ?_, fun {other u} here => ?_, fun {other x sub u} here listed => ?_,
    fun {i i' x x' sub u u'} here here' listed listed' => ?_⟩
  · change r.currentId = (r.data.set id (some t')).length
    rw [List.length_set]
    exact wired.numbered
  · rw [gets] at here
    split at here
    · rename_i own
      cases here
      exact same.id.trans ((wired.own found).trans own.symm)
    · exact wired.own here
  · rw [gets] at here
    split at here
    · cases here
      exact formed
    · exact wired.formed here
  · rw [gets] at here
    split at here
    · cases here
      rw [cells.subTrees] at listed
      obtain ⟨s, linked⟩ := wired.links found listed
      obtain ⟨s', after⟩ := linkedSet found same linked
      refine ⟨s', after.found, same.magnitude.symm ▸ after.magnitude, fun k i name index octant named => ?_⟩
      obtain ⟨k', index', named'⟩ := cells.cells k i x name index named
      rw [after.min k' i name index' octant named', cellOf, cellOf, nodeMinOf, nodeMinOf, same.magnitude, same.mortonMin]
    · obtain ⟨s, linked⟩ := wired.links here listed
      exact linkedSet found same linked
  · obtain ⟨v, known, equal⟩ := subTrees here
    obtain ⟨v', known', equal'⟩ := subTrees here'
    rw [equal] at listed
    rw [equal'] at listed'
    exact wired.once known known' listed listed'

end

/-! ## A change at a node -/

-- Where the places at and below the node's level go; only the node's own tree is another.
structure Change (r r' : Registry) (p : Position) (lod : Nat) (move : Position → Position) : Prop where
  under : ∀ {m}, Under r m → Under r' m
  trees : ∀ {id t}, r.get id = some t → ∃ t', r'.get id = some t' ∧ SameTree t t'
  infos : ∀ {id t}, r.get id = some t → id ≠ p.tree → (r'.get id).map infoOf = some (infoOf t)
  above : ∀ {q m t}, At r q m t → lod ≤ m → ∃ t', At r' q m t' ∧ nameAt t' q = nameAt t q
  views : ∀ {q m t}, At r q m t → lod < m → dataIn r' q = dataIn r q ∧ ∀ i < 8, toChild r' q i = toChild r q i
  level : ∀ q, (move q).level = q.level
  rooted : ∀ q : Position, q.level = 0 → move q = q
  stays : ∀ {q t}, At r q lod t → move q = q
  data : ∀ {q m t}, At r q m t → m < lod ∨ m = lod ∧ q ≠ p → dataIn r' (move q) = dataIn r q
  child : ∀ {q m t}, At r q m t → m < lod ∨ m = lod ∧ q ≠ p → ∀ i < 8, toChild r' (move q) i = (toChild r q i).map move

namespace Change
variable {r r' : Registry} {p : Position} {lod : Nat} {move : Position → Position} {t : Tree}

theorem nests (change : Change r r' p lod move) (wired : Wired r) (here : At r p lod t) {n : Octree} {q : Position} {m : Nat}
    {u : Tree} (at_ : At r q m u) (low : m < lod ∨ m = lod ∧ q ≠ p) (nests : Nests r n q) : Nests r' n (move q) := by
  refine nestsAlong (S := fun q => ∃ m u, At r q m u ∧ (m < lod ∨ m = lod ∧ q ≠ p)) ?_ ?_ ?_ change.level ?_ nests
    ⟨m, u, at_, low⟩
  · rintro q i c ⟨m, u, at_, low⟩ octant found
    obtain ⟨below, s, rfl, there⟩ := wired.childAt at_ octant found
    exact ⟨below, s, there, Or.inl (by omega)⟩
  · rintro q ⟨m, u, at_, low⟩
    exact change.data at_ low
  · rintro q ⟨m, u, at_, low⟩ i octant
    exact change.child at_ low i octant
  · rintro q ⟨m, u, at_, low⟩ first start
    refine ⟨change.rooted q first, ?_⟩
    rw [at_.found, Option.map_some]
    refine change.infos at_.found fun own => ?_
    obtain rfl : t = u := Option.some.inj ((own ▸ here.found).symm.trans at_.found)
    have level := at_.lod
    have level' := here.lod
    have less := here.level
    rw [first] at level
    unfold treeLevelToLod magnitudeToLod at level level'
    rcases low with low | ⟨equal, apart⟩
    · omega
    · have zero : p.level = 0 := by omega
      exact apart (by rw [wired.rootAt here zero, wired.rootAt at_ first, own])

theorem framed (change : Change r r' p lod move) (wired : Wired r) (here : At r p lod t) : Framed r r' p lod := by
  refine ⟨change.under, change.trees, change.above, change.views, fun known apart _ => change.infos known apart,
    fun {n q u} at_ apart nests => ?_⟩
  have moved_ := change.nests wired here at_ (Or.inr ⟨rfl, apart⟩) nests
  rwa [change.stays at_] at moved_

end Change

/-! ## What a tree keeps beside its arrays -/

section
variable {r : Registry} {t t' : Tree}

theorem toChildSet {id : Nat} (found : r.get id = some t) (subTrees : t'.subTrees = t.subTrees)
    (child : ∀ l k i, childIndex t' l k i = childIndex t l k i) (q : Position) (i : Nat) :
    toChild (r.set id t') q i = toChild r q i := by
  have gets := getSet (getInside found) t' q.tree
  by_cases own : q.tree = id
  · rw [if_pos own] at gets
    rw [childOf gets, childOf (own ▸ found), child, subTrees]
  · rw [if_neg own] at gets
    unfold toChild
    rw [gets]

theorem treesSet {id : Nat} (found : r.get id = some t) (same : SameTree t t') {other : Nat} {u : Tree}
    (here : r.get other = some u) : ∃ u', (r.set id t').get other = some u' ∧ SameTree u u' := by
  have gets := getSet (getInside found) t' other
  by_cases own : other = id
  · subst own
    rw [if_pos rfl] at gets
    obtain rfl : t = u := Option.some.inj (found.symm.trans here)
    exact ⟨t', gets, same⟩
  · rw [if_neg own] at gets
    exact ⟨u, gets.trans here, .refl u⟩

theorem underSet {id : Nat} (found : r.get id = some t) (same : SameTree t t') {m : Nat} (under : Under r m) :
    Under (r.set id t') m := by
  intro other u here
  rw [getSet (getInside found)] at here
  split at here
  · cases here
    exact same.magnitude.symm ▸ under found
  · exact under here

theorem infosSet {id : Nat} (found : r.get id = some t) (t' : Tree) {other : Nat} {u : Tree} (here : r.get other = some u)
    (apart : other ≠ id) : ((r.set id t').get other).map infoOf = some (infoOf u) := by
  rw [getSet (getInside found), if_neg apart, here]
  rfl

theorem atSet {id : Nat} (found : r.get id = some t) (same : SameTree t t')
    (inside : ∀ l k, k < (t.levels l).nodes.length → k < (t'.levels l).nodes.length) {q : Position} {m : Nat} {u : Tree}
    (names : ∀ l : Nat, (t'.levels l).nodeIds = (t.levels l).nodeIds) (here : At r q m u) :
    ∃ u', At (r.set id t') q m u' ∧ nameAt u' q = nameAt u q := by
  have gets := getSet (getInside found) t' q.tree
  by_cases own : q.tree = id
  · rw [if_pos own] at gets
    obtain rfl : t = u := Option.some.inj ((own ▸ found).symm.trans here.found)
    exact ⟨t', ⟨gets, here.level, inside _ _ here.inside, same.magnitude.symm ▸ here.lod⟩, by rw [nameAt, names, nameAt]⟩
  · rw [if_neg own] at gets
    exact ⟨u, ⟨gets.trans here.found, here.level, here.inside, here.lod⟩, rfl⟩

theorem dataSet {id : Nat} (found : r.get id = some t) (q : Position) :
    dataIn (r.set id t') q = if q.tree = id then dataAt t' q.level q.index else dataIn r q := by
  unfold dataIn
  rw [getSet (getInside found)]
  split <;> rfl

structure SameShape (t t' : Tree) : Prop extends SameTree t t' where
  nodes : ∀ l, (t'.levels l).nodes = (t.levels l).nodes
  skips : ∀ l, (t'.levels l).skips = (t.levels l).skips
  nodeIds : ∀ l, (t'.levels l).nodeIds = (t.levels l).nodeIds
  lengths : ∀ l, (t'.levels l).data.length = (t.levels l).data.length
  subTrees : t'.subTrees = t.subTrees

namespace SameShape
variable (shape : SameShape t t')
include shape

theorem child (l k i : Nat) : childIndex t' l k i = childIndex t l k i := by
  unfold childIndex nodeAt
  rw [shape.nodes, shape.skips]

theorem cells : SameCells t t' :=
  ⟨shape.subTrees, fun k i x name index named =>
    ⟨k, by rw [← shape.child]; exact index, by rw [← shape.nodeIds]; exact named⟩⟩

theorem formed (formed : Formed t) : Formed t' := by
  refine ⟨fun l less => ?_, fun l less => ?_, fun l less => ?_, fun l less => ?_, ?_, ?_, fun l less => ?_, ?_⟩
  · rw [shape.nodeIds, shape.nodes]
    exact formed.ids l less
  · rw [shape.lengths, shape.nodes]
    exact formed.data l less
  · rw [shape.skips, shape.nodes]
    exact formed.skips l less
  · rw [shape.nodes]
    exact formed.masks l less
  · rw [shape.nodes]
    exact formed.root
  · rw [shape.nodeIds, shape.toSameTree.lod, shape.mortonMin]
    exact formed.rootName
  · rw [shape.nodeIds, rows, shape.nodeIds, shape.nodes]
    exact formed.names l less
  · rw [shape.subTrees, shape.nodes]
    exact formed.subTrees

theorem wired {id : Nat} (wired : Wired r) (found : r.get id = some t) : Wired (r.set id t') :=
  wiredSet wired found shape.toSameTree (shape.formed (wired.formed found)) shape.cells

-- All but the data of the node itself is as it was.
theorem change {p : Position} {lod : Nat} (here : At r p lod t)
    (data : ∀ l k, ¬(l = p.level ∧ k = p.index) → dataAt t' l k = dataAt t l k) :
    Change r (r.set p.tree t') p lod id := by
  have keeps : ∀ q, q ≠ p → dataIn (r.set p.tree t') q = dataIn r q := by
    intro q apart
    rw [dataSet here.found]
    split
    · rename_i own
      rw [data q.level q.index fun both => apart ?_, dataIn, own, here.found]
      · rfl
      · obtain ⟨tree, level, index⟩ := q
        obtain ⟨level', index'⟩ := both
        dsimp only at own level' index'
        rw [own, level', index']
    · rfl
  have child := toChildSet here.found shape.subTrees shape.child
  have stays {q : Position} {m : Nat} {u : Tree} (at_ : At r q m u) :=
    atSet here.found shape.toSameTree (fun l k inside => (shape.nodes l).symm ▸ inside) shape.nodeIds at_
  refine ⟨underSet here.found shape.toSameTree, treesSet here.found shape.toSameTree, infosSet here.found t',
    fun at_ _ => stays at_, fun {q m u} at_ less => ⟨keeps q fun equal => ?_, fun i _ => child q i⟩, fun _ => rfl,
    fun _ _ => rfl, fun _ => rfl, fun {q m u} at_ low => keeps q fun equal => ?_, fun {q m u} at_ _ i _ => ?_⟩
  · rw [equal] at at_
    have same := (atUnique at_ here).1
    omega
  · rw [equal] at at_
    have same := (atUnique at_ here).1
    rcases low with low | ⟨_, apart⟩
    · omega
    · exact apart equal
  · rw [Option.map_id]
    exact child q i

end SameShape

theorem setDataShape (l k : Nat) (data : Collection) : SameShape t (setData t l k data) := by
  have same := setDataSame t l k data
  refine ⟨⟨rfl, rfl, rfl, rfl⟩, same.nodes, same.skips, same.nodeIds, fun l' => ?_, rfl⟩
  unfold setData setLevel
  dsimp only
  by_cases own : l' = l
  · rw [own, Function.update_self, List.length_set]
  · rw [Function.update_of_ne own]

-- Only what is beside the arrays.
structure SameArrays (t t' : Tree) : Prop extends SameTree t t' where
  levels : t'.levels = t.levels
  subTrees : t'.subTrees = t.subTrees

theorem SameArrays.shape (same : SameArrays t t') : SameShape t t' :=
  ⟨same.toSameTree, fun l => by rw [same.levels], fun l => by rw [same.levels], fun l => by rw [same.levels],
    fun l => by rw [same.levels], same.subTrees⟩

theorem SameArrays.change (same : SameArrays t t') {p : Position} {lod : Nat} (here : At r p lod t) :
    Change r (r.set p.tree t') p lod id :=
  same.shape.change here fun l k _ => by rw [dataAt, same.levels, dataAt]

theorem nestsData {p : Position} {lod : Nat} (wired : Wired r) (here : At r p lod t) (shape : SameShape t t')
    (others : ∀ l k, ¬(l = p.level ∧ k = p.index) → dataAt t' l k = dataAt t l k) {data data' : Collection}
    {children : Nat → Octree} (now : dataAt t' p.level p.index = some data') (nests : Nests r (.node data children) p) :
    Nests (r.set p.tree t') (.node data' children) p := by
  have change := shape.change here others
  have child := toChildSet here.found shape.subTrees shape.child
  obtain ⟨_, missing, below⟩ := nestsNode.mp nests
  refine nestsNode.mpr ⟨?_, fun i octant none_ => ?_, fun i octant c found => ?_⟩
  · rw [dataSet here.found, if_pos rfl]
    exact now
  · rw [child] at none_
    exact missing i octant none_
  · rw [child] at found
    obtain ⟨kind, under⟩ := below i octant c found
    obtain ⟨lower, s, rfl, there⟩ := wired.childAt here octant found
    exact ⟨kind, change.nests wired here there (Or.inl (Nat.lt_succ_self lower)) under⟩

theorem nestsArrays {p : Position} {lod : Nat} (wired : Wired r) (here : At r p lod t) (same : SameArrays t t')
    {data : Collection} {children : Nat → Octree} (nests : Nests r (.node data children) p) :
    Nests (r.set p.tree t') (.node data children) p := by
  have own := (nestsNode.mp nests).data
  rw [dataIn, here.found, Option.bind_some] at own
  refine nestsData wired here same.shape (fun l k _ => by rw [dataAt, same.levels, dataAt]) ?_ nests
  rw [dataAt, same.levels]
  exact own

end

/-! ## A child more -/

theorem sameLod {r : Registry} {p q : Position} {lod m : Nat} {t u : Tree} (here : At r p lod t) (there : At r q m u)
    (own : q.tree = p.tree) : u = t ∧ m + q.level = lod + p.level := by
  obtain rfl : t = u := Option.some.inj ((own ▸ here.found).symm.trans there.found)
  have level := here.level
  have level' := there.level
  have same := here.lod
  have same' := there.lod
  unfold treeLevelToLod magnitudeToLod at same same'
  exact ⟨rfl, by omega⟩

theorem atHere {r : Registry} {p : Position} {lod : Nat} {t : Tree} (here : At r p lod t) :
    ∃ node, nodeAt t p.level p.index = some node := ⟨_, List.getElem?_eq_getElem here.inside⟩

theorem grownSame {t t' : Tree} {l k node i name : Nat} (grown : ChildGrown t t' l k node i name) :
    SameTree t t' ∧ infoOf t' = infoOf t ∧ t'.subTrees = t.subTrees := by
  rw [grown.rest]
  exact ⟨⟨rfl, rfl, rfl, rfl⟩, rfl, rfl⟩

def childMove (p : Position) (place : Nat) (q : Position) : Position :=
  if q.tree = p.tree ∧ q.level = p.level + 1 then ⟨q.tree, q.level, moved place q.index⟩ else q

theorem moveOther {p q : Position} (place : Nat) (other : ¬(q.tree = p.tree ∧ q.level = p.level + 1)) :
    childMove p place q = q := if_neg other

theorem moveNext {p q : Position} (place : Nat) (own : q.tree = p.tree) (level : q.level = p.level + 1) :
    childMove p place q = ⟨q.tree, q.level, moved place q.index⟩ := if_pos ⟨own, level⟩

theorem moveRoot (p : Position) (place sub : Nat) : childMove p place (rootOf sub) = rootOf sub :=
  if_neg fun both => absurd both.2 (Nat.succ_ne_zero _).symm

section
variable {r : Registry} {p : Position} {lod node i name : Nat} {t t' : Tree}

theorem grownChange (wired : Wired r) (here : At r p lod t) (level : p.level < 4) (gap : Gap t p.level p.index node i)
    (grown : ChildGrown t t' p.level p.index node i name) :
    Change r (r.set p.tree t') p lod (childMove p (placeOf t p.level p.index node i)) := by
  obtain ⟨same, info, subTrees⟩ := grownSame grown
  have formed := wired.formed here.found
  have gets := getSet (getInside here.found) t'
  generalize place_ : placeOf t p.level p.index node i = place
  have ownChild : ∀ k' j, j < 8 → k' ≠ p.index →
      childIndex t' p.level k' j = (childIndex t p.level k' j).map (moved place) := by
    intro k' j octant apart
    rw [widenedChild formed here.level gap grown.own octant, if_neg fun both => apart both.1, place_]
  have otherTree : ∀ q, q.tree ≠ p.tree → dataIn (r.set p.tree t') q = dataIn r q ∧
      ∀ j, toChild (r.set p.tree t') q j = toChild r q j := by
    intro q apart
    have known := gets q.tree
    rw [if_neg apart] at known
    refine ⟨by rw [dataIn, known, dataIn], fun j => ?_⟩
    unfold toChild
    rw [known]
  have higher : ∀ {q m u}, At r q m u → q.tree = p.tree → lod < m → dataIn (r.set p.tree t') q = dataIn r q ∧
      ∀ j < 8, toChild (r.set p.tree t') q j = toChild r q j := by
    intro q m u at_ own less
    obtain ⟨rfl, sum⟩ := sameLod here at_ own
    have known := gets q.tree
    rw [if_pos own] at known
    have apart : q.level ≠ p.level := by omega
    have apart' : q.level ≠ p.level + 1 := by omega
    refine ⟨?_, fun j octant => ?_⟩
    · rw [dataIn, known, dataIn, at_.found, Option.bind_some, Option.bind_some, grown.dataOther apart apart']
    · rw [childOf known, childOf at_.found, grown.childOther apart apart', subTrees]
  refine ⟨underSet here.found same, treesSet here.found same, infosSet here.found t', fun {q m u} at_ le => ?_,
    fun {q m u} at_ less => ?_, fun q => ?_, fun q first => ?_, fun {q u} at_ => ?_, fun {q m u} at_ low => ?_,
    fun {q m u} at_ low j octant => ?_⟩
  · have known := gets q.tree
    by_cases own : q.tree = p.tree
    · rw [if_pos own] at known
      obtain ⟨rfl, sum⟩ := sameLod here at_ own
      by_cases equal : q.level = p.level
      · refine ⟨t', ⟨known, at_.level, ?_, same.magnitude.symm ▸ at_.lod⟩, ?_⟩
        · have inside := at_.inside
          rw [equal] at inside ⊢
          rw [grown.own, widened, List.length_set]
          exact inside
        · rw [nameAt, equal, grown.own, nameAt, equal, widened]
      · have apart : q.level ≠ p.level + 1 := by omega
        refine ⟨t', ⟨known, at_.level, ?_, same.magnitude.symm ▸ at_.lod⟩, ?_⟩
        · rw [grown.other q.level equal apart]
          exact at_.inside
        · rw [nameAt, grown.other q.level equal apart, nameAt]
    · rw [if_neg own] at known
      exact ⟨u, ⟨known.trans at_.found, at_.level, at_.inside, at_.lod⟩, rfl⟩
  · by_cases own : q.tree = p.tree
    · exact higher at_ own less
    · exact ⟨(otherTree q own).1, fun j _ => (otherTree q own).2 j⟩
  · unfold childMove
    split <;> rfl
  · exact moveOther place fun both => by omega
  · refine moveOther place fun both => ?_
    have sum := (sameLod here at_ both.1).2
    omega
  · by_cases own : q.tree = p.tree
    · obtain ⟨rfl, sum⟩ := sameLod here at_ own
      have known := gets q.tree
      rw [if_pos own] at known
      by_cases next : q.level = p.level + 1
      · rw [moveNext place own next, dataIn, dataIn, at_.found]
        dsimp only
        rw [known, Option.bind_some, Option.bind_some, next, ← place_, grown.dataBelow]
      · rw [moveOther place fun both => next both.2, dataIn, dataIn, known, at_.found, Option.bind_some, Option.bind_some]
        by_cases equal : q.level = p.level
        · rw [equal, grown.dataOwn]
        · rw [grown.dataOther equal next]
    · rw [moveOther place fun both => own both.1]
      exact (otherTree q own).1
  · by_cases own : q.tree = p.tree
    · obtain ⟨rfl, sum⟩ := sameLod here at_ own
      have known := gets q.tree
      rw [if_pos own] at known
      by_cases next : q.level = p.level + 1
      · rw [moveNext place own next, childOf (q := ⟨q.tree, q.level, moved place q.index⟩) known, childOf at_.found]
        dsimp only
        rw [next, ← place_, grown.childBelow, place_, subTrees]
        cases childIndex u (p.level + 1) q.index j with
        | none => rfl
        | some x =>
          rw [Option.bind_some]
          split
          · rw [Option.map_some, moveOther place fun both => by
              have two := both.2
              dsimp only at two
              omega]
          · cases u.subTrees[x]? with
            | none => rfl
            | some sub => rw [Option.map_some, Option.map_some, moveRoot]
      · rw [moveOther place fun both => next both.2, childOf known, childOf at_.found, subTrees]
        by_cases equal : q.level = p.level
        · have apart : q.index ≠ p.index := by
            rcases low with low | ⟨_, apart⟩
            · omega
            · intro index
              obtain ⟨tree, l, k⟩ := q
              dsimp only at own equal index
              exact apart (by rw [own, equal, index])
          rw [equal, ownChild _ j octant apart]
          cases childIndex u p.level q.index j with
          | none => rfl
          | some x =>
            rw [Option.map_some, Option.bind_some, Option.bind_some, if_pos level, if_pos level, Option.map_some,
              moveNext (q := ⟨q.tree, p.level + 1, x⟩) place own rfl]
        · rw [grown.childOther equal next]
          cases childIndex u q.level q.index j with
          | none => rfl
          | some x =>
            rw [Option.bind_some]
            split
            · rw [Option.map_some, moveOther place fun both => by
                have two := both.2
                dsimp only at two
                omega]
            · cases u.subTrees[x]? with
              | none => rfl
              | some sub => rw [Option.map_some, Option.map_some, moveRoot]
    · rw [moveOther place fun both => own both.1, (otherTree q own).2 j, childOf at_.found]
      cases childIndex u q.level q.index j with
      | none => rfl
      | some x =>
        rw [Option.bind_some]
        split
        · rw [Option.map_some, moveOther (q := ⟨q.tree, q.level + 1, x⟩) place fun both => own both.1]
        · cases u.subTrees[x]? with
          | none => rfl
          | some sub => rw [Option.map_some, Option.map_some, moveRoot]

theorem grownWired (wired : Wired r) (here : At r p lod t) (level : p.level < 4) (gap : Gap t p.level p.index node i)
    (named : (t.levels p.level).nodeIds[p.index]? = some name)
    (grown : ChildGrown t t' p.level p.index node i (getName name (p.level + 1) i)) : Wired (r.set p.tree t') := by
  obtain ⟨same, _, subTrees⟩ := grownSame grown
  have formed := wired.formed here.found
  refine wiredSet wired here.found same (growFormed formed level gap named grown) ⟨subTrees, fun k j x other index named' => ?_⟩
  by_cases next : p.level + 1 = 4
  · have below := grown.childBelow
    rw [next] at below
    have fresh := grown.fresh formed level gap
    rw [next] at fresh
    rcases @movedOr (placeOf t p.level p.index node i) k with rfl | ⟨k', rfl⟩
    · rw [indexNone fresh.1] at index
      cases index
    · refine ⟨k', (below k' j).symm.trans index, ?_⟩
      have names : (t'.levels 4).nodeIds = (t.levels 4).nodeIds.insertIdx (placeOf t p.level p.index node i)
          (getName name (p.level + 1) i) := by
        rw [← next, grown.below, filled]
        dsimp only
        rw [nameSet]
        rw [formed.ids (p.level + 1) (by omega)]
        exact gapWithin formed level gap
      rw [names, putMoved] at named'
      exact named'
  · by_cases own : p.level = 4
    · omega
    · refine ⟨k, ?_, ?_⟩
      · rw [← grown.childOther (Ne.symm own) (Ne.symm next)]
        exact index
      · rw [← grown.other 4 (Ne.symm own) (Ne.symm next)]
        exact named'

-- The way from the node to the child that is put in.
theorem grownTo (wired : Wired r) (here : At r p lod t) (level : p.level < 4) (gap : Gap t p.level p.index node i)
    (grown : ChildGrown t t' p.level p.index node i name) {j : Nat} (octant : j < 8) : toChild (r.set p.tree t') p j =
      if j = i then some ⟨p.tree, p.level + 1, placeOf t p.level p.index node i⟩
      else (toChild r p j).map (childMove p (placeOf t p.level p.index node i)) := by
  have known := getSet (getInside here.found) t' p.tree
  rw [if_pos rfl] at known
  rw [childOf known, childOf here.found, widenedChild (wired.formed here.found) here.level gap grown.own octant]
  by_cases own : j = i
  · rw [if_pos ⟨rfl, own⟩, if_pos own, Option.bind_some, if_pos level]
  · rw [if_neg fun both => own both.2, if_neg own]
    cases childIndex t p.level p.index j with
    | none => rfl
    | some x =>
      rw [Option.map_some, Option.bind_some, Option.bind_some, if_pos level, if_pos level, Option.map_some,
        moveNext (p := p) (q := ⟨p.tree, p.level + 1, x⟩) _ rfl rfl]

theorem emptyNests {r : Registry} {q : Position} {t : Tree} (found : r.get q.tree = some t)
    (node : nodeAt t q.level q.index = some 0) (data : dataAt t q.level q.index = some empty) : Nests r emptyNode q := by
  refine nestsNode.mpr ⟨by rw [dataIn, found]; exact data, fun _ _ _ => rfl, fun i _ c child => ?_⟩
  rw [childOf found] at child
  obtain ⟨x, index, _⟩ := Option.bind_eq_some_iff.mp child
  rw [indexNone node] at index
  cases index

theorem grownNests (wired : Wired r) (here : At r p lod t) (level : p.level < 4) (gap : Gap t p.level p.index node i)
    (grown : ChildGrown t t' p.level p.index node i name) {data : Collection} {children : Nat → Octree}
    (nests : Nests r (.node data children) p) :
    Nests (r.set p.tree t') (.node data (Function.update children i emptyNode)) p := by
  have change := grownChange wired here level gap grown
  have known := getSet (getInside here.found) t' p.tree
  rw [if_pos rfl] at known
  obtain ⟨own, missing, below⟩ := nestsNode.mp nests
  refine nestsNode.mpr ⟨?_, fun j octant none_ => ?_, fun j octant c found => ?_⟩
  · rw [dataIn, here.found] at own
    rw [dataIn, known, Option.bind_some, grown.dataOwn]
    exact own
  · rw [grownTo wired here level gap grown octant] at none_
    by_cases new : j = i
    · rw [if_pos new] at none_
      cases none_
    · rw [if_neg new] at none_
      rw [Function.update_of_ne new]
      exact missing j octant (Option.map_eq_none_iff.mp none_)
  · rw [grownTo wired here level gap grown octant] at found
    by_cases new : j = i
    · rw [if_pos new] at found
      cases found
      obtain ⟨node_, data_, _⟩ := grown.fresh (wired.formed here.found) level gap
      rw [new, Function.update_self]
      exact ⟨(decide_eq_true level).symm, emptyNests known node_ data_⟩
    · rw [if_neg new] at found
      rw [Function.update_of_ne new]
      obtain ⟨c', child, rfl⟩ := Option.map_eq_some_iff.mp found
      obtain ⟨kind, under⟩ := below j octant c' child
      obtain ⟨lower, s, rfl, there⟩ := wired.childAt here octant child
      exact ⟨kind, change.nests wired here there (Or.inl (Nat.lt_succ_self lower)) under⟩

end

end Dewfall.ArrayGrow
