import Dewfall.Converter.ArrayHang
import Dewfall.Converter.TreeNear

/-! Insertion over the arrays does what insertion into the nested tree does: the arrays stand for the nested tree before
and after it, and nothing beside the node is changed. -/
namespace Dewfall.ArrayInsert
open General General.Cells General.Blocks StorageMap PointSplitter MortonTree TreeReparent ArrayBuild ArrayForm ArrayNest
  ArrayGrow ArrayHang
open TreeBuild (Octree TreeInfo State newTree emptyNode isLeafNode pointsDataAdd moveStorageLocationsToSubtree arrange
  openTree splitPointsToChildren Moving insertPoints)
open TreeInsert (Octree.isNode)
open TreeSplit (Units)
open TreeDescend (Env)
open TreeEnter (insertNode deepestSpec)
open TreeNear
open LodWork (nodeAt dataAt setData setDataAt treeLevelToLod nodeMinOf)

/-! ## The arrays and the nested tree -/

structure Stands (w : Trees) (p : Position) (lod : Nat) (t : Tree) (node : Octree) (s : State) : Prop where
  wired : Wired w.registry
  here : At w.registry p lod t
  nests : Nests w.registry node p
  storage : t.storageMap = s.storageMap
  refs : w.chunkTreeRefs = s.refs
  counter : w.registry.currentId = s.currentId

structure Done (w w' : Trees) (p : Position) (lod : Nat) (t t' : Tree) (node : Octree) (s : State) : Prop where
  stands : Stands w' p lod t' node s
  framed : Framed w.registry w'.registry p lod
  named : nameAt t' p = nameAt t p
  same : SameTree t t'
  flags : t'.isDirty = true ∧ t'.leavesCollapsed = false
  limit : w'.nodeLimit = w.nodeLimit
  root : w'.root = w.root

theorem Done.trans {w w' w'' : Trees} {p : Position} {lod : Nat} {t t' t'' : Tree} {node node' : Octree} {s s' : State}
    (first : Done w w' p lod t t' node s) (second : Done w' w'' p lod t' t'' node' s') : Done w w'' p lod t t'' node' s' :=
  ⟨second.stands, first.framed.trans second.framed, second.named.trans first.named, first.same.trans second.same,
    second.flags, second.limit.trans first.limit, second.root.trans first.root⟩

section
variable {w : Trees} {p : Position} {lod : Nat} {t : Tree} {data : Collection} {children : Nat → Octree} {s : State}

theorem Stands.bits (stands : Stands w p lod t (.node data children) s) {node : Nat}
    (there : nodeAt t p.level p.index = some node) {i : Nat} (octant : i < 8) : node.testBit i = (children i).present := by
  obtain ⟨_, missing, below⟩ := nestsNode.mp stands.nests
  rw [stands.wired.bit stands.here there octant]
  cases child : toChild w.registry p i with
  | none => rw [missing i octant child]; rfl
  | some c => rw [nestsPresent (below i octant c child).2]; rfl

theorem Stands.leaf (stands : Stands w p lod t (.node data children) s) {node : Nat}
    (there : nodeAt t p.level p.index = some node) : node = 0 ↔ isLeafNode children = true := by
  have small := (stands.wired.formed stands.here.found).masks p.level stands.here.level node (List.mem_of_getElem? there)
  constructor
  · rintro rfl
    refine List.all_eq_true.mpr fun i mem => ?_
    rw [← stands.bits there (List.mem_range.mp mem), Nat.zero_testBit]
    rfl
  · intro leaf
    refine Nat.eq_of_testBit_eq fun i => ?_
    rw [Nat.zero_testBit]
    by_cases octant : i < 8
    · have absent := List.all_eq_true.mp leaf i (List.mem_range.mpr octant)
      rw [← stands.bits there octant] at absent
      simpa using absent
    · exact Nat.testBit_lt_two_pow (small.trans_le (show 2 ^ 8 ≤ 2 ^ i from
        Nat.pow_le_pow_right (by decide) (Nat.le_of_not_lt octant)))

theorem Stands.dataHere (stands : Stands w p lod t (.node data children) s) : dataAt t p.level p.index = some data := by
  have own := (nestsNode.mp stands.nests).data
  rwa [dataIn, stands.here.found] at own

-- The node's data is another, and what its tree keeps beside the arrays.
theorem touched {t' : Tree} {data' : Collection} {m : InputStorageMap} (stands : Stands w p lod t (.node data children) s)
    (shape : SameShape t t') (others : ∀ l k, ¬(l = p.level ∧ k = p.index) → dataAt t' l k = dataAt t l k)
    (own : dataAt t' p.level p.index = some data') (storage : t'.storageMap = m)
    (flags : t'.isDirty = true ∧ t'.leavesCollapsed = false) :
    Done w (w.set p.tree t') p lod t t' (.node data' children) { s with storageMap := m } := by
  obtain ⟨wired, here, nests, _, refs, counter⟩ := stands
  have known := getSet (getInside here.found) t' p.tree
  rw [if_pos rfl] at known
  have change := shape.change here others
  refine ⟨⟨shape.wired wired here.found, ⟨known, here.level, ?_, shape.magnitude.symm ▸ here.lod⟩,
    nestsData wired here shape others own nests, storage, refs, counter⟩, change.framed wired here, ?_, shape.toSameTree,
    flags, rfl, rfl⟩
  · rw [shape.nodes]
    exact here.inside
  · rw [nameAt, shape.nodeIds, nameAt]

theorem Done.refl (stands : Stands w p lod t (.node data children) s) (flags : t.isDirty = true ∧ t.leavesCollapsed = false) :
    Done w w p lod t t (.node data children) s :=
  ⟨stands, .refl .., rfl, .refl t, flags, rfl, rfl⟩

-- A child that an insertion below it has changed.
theorem childReplaced {r r' : Registry} {c : Position} {i : Nat} {x : Octree} (wired : Wired r) (here : At r p (lod + 1) t)
    (nests : Nests r (.node data children) p) (octant : i < 8) (child : toChild r p i = some c) (framed : Framed r r' c lod)
    (after : Nests r' x c) (kind : Octree.isNode x = decide (p.level < 4)) :
    Nests r' (.node data (Function.update children i x)) p := by
  obtain ⟨own, missing, below⟩ := nestsNode.mp nests
  obtain ⟨dataSame, childSame⟩ := framed.above here (Nat.lt_succ_self lod)
  refine nestsNode.mpr ⟨dataSame.trans own, fun j octant' none_ => ?_, fun j octant' d found => ?_⟩
  · rw [childSame j octant'] at none_
    by_cases same : j = i
    · rw [same, child] at none_
      cases none_
    · rw [Function.update_of_ne same]
      exact missing j octant' none_
  · rw [childSame j octant'] at found
    by_cases same : j = i
    · rw [same, child] at found
      cases found
      rw [same, Function.update_self]
      exact ⟨kind, after⟩
    · rw [Function.update_of_ne same]
      obtain ⟨kind', under⟩ := below j octant' d found
      obtain ⟨lower, v, equal, there⟩ := wired.childAt here octant' found
      cases equal
      refine ⟨kind', framed.beside there (fun equal => ?_) under⟩
      rw [equal] at found
      exact same (wired.childOnce here here octant' octant found child).2

end

/-! ## One child -/

-- What is asked of the insertion one level below.
def Follows (limit : Nat) (flat : ArrayBuild.Insert) (nested : TreeBuild.Insert) (lod : Nat) : Prop :=
  ∀ {w p t data children s min name points node s'}, w.nodeLimit = limit → Stands w p lod t (.node data children) s →
    nameAt t p = some name → Aligned (lod + 1) min → cellOf t name = min → Has (lod + 1) min points.min →
    nested min (.node data children) s points = some (node, s') →
    Octree.isNode node = true ∧ ∃ w' t', flat w p min name points = some w' ∧ Done w w' p lod t t' node s'

section
variable {w : Trees} {p : Position} {lod limit i min name : Nat} {t : Tree} {data : Collection} {children : Nat → Octree}
variable {s s' : State} {points : Collection} {insert : ArrayBuild.Insert} {nested : TreeBuild.Insert} {x : Octree}

structure Inside (t : Tree) (p : Position) (lod min name : Nat) : Prop where
  named : nameAt t p = some name
  aligned : Aligned (lod + 2) min
  cell : cellOf t name = min

theorem Inside.next {w' : Trees} {t' : Tree} {node : Octree} (inside : Inside t p lod min name)
    (done : Done w w' p (lod + 1) t t' node s) : Inside t' p lod min name := by
  refine ⟨done.named.trans inside.named, inside.aligned, ?_⟩
  rw [cellOf, nodeMinOf, done.same.magnitude, done.same.mortonMin]
  exact inside.cell

theorem Inside.child (inside : Inside t p lod min name) (here : At w.registry p (lod + 1) t) (octant : i < 8) :
    cellOf t name ||| i <<< (treeLevelToLod t.magnitude p.level * 3) = child (lod + 1) min i := by
  rw [inside.cell, ← here.lod]
  exact bitsApart inside.aligned octant

theorem enterThere {c : Position} (follows : Follows limit insert nested lod) (limits : w.nodeLimit = limit)
    (stands : Stands w p (lod + 1) t (.node data children) s) (inside : Inside t p lod min name) (octant : i < 8)
    (level : p.level < 4) (found : toChild w.registry p i = some c) (has : Has (lod + 1) (child (lod + 1) min i) points.min)
    (run : nested (child (lod + 1) min i) (children i) s points = some (x, s')) : x.present = true ∧ ∃ w' t',
      insert w c (child (lod + 1) min i) (getName name (p.level + 1) i) points = some w' ∧
        Done w w' p (lod + 1) t t' (.node data (Function.update children i x)) s' := by
  obtain ⟨wired, here, nests, storage, refs, counter⟩ := stands
  obtain ⟨own, missing, below⟩ := nestsNode.mp nests
  obtain ⟨kind, under⟩ := below i octant c found
  rw [decide_eq_true level] at kind
  have where_ : ∃ index, childIndex t p.level p.index i = some index ∧ c = ⟨p.tree, p.level + 1, index⟩ := by
    have place := found
    rw [childOf here.found] at place
    obtain ⟨index, at_, same⟩ := Option.bind_eq_some_iff.mp place
    rw [if_pos level] at same
    exact ⟨index, at_, (Option.some.inj same).symm⟩
  obtain ⟨index, at_, rfl⟩ := where_
  obtain ⟨lower, u, equal, there⟩ := wired.childAt here octant found
  cases equal
  obtain rfl : t = u := Option.some.inj (here.found.symm.trans there.found)
  cases under_ : children i with
  | missing => rw [under_] at kind; cases kind
  | tree info root => rw [under_] at kind; cases kind
  | node d cs =>
    rw [under_] at under run
    have cell : cellOf t (getName name (p.level + 1) i) = child (lod + 1) min i := by
      rw [cellChild level octant]
      exact inside.child here octant
    obtain ⟨isNode, w', t', ran, done⟩ := follows limits ⟨wired, there, under, storage, refs, counter⟩
      ((wired.formed here.found).childName level octant at_ inside.named) (childAligned inside.aligned) cell has run
    have framed := done.framed.parent wired here octant found
    obtain ⟨t'', here', named⟩ := framed.stay here (Nat.le_refl _)
    obtain rfl : t'' = t' := Option.some.inj (here'.found.symm.trans done.stands.here.found)
    refine ⟨nestsPresent done.stands.nests, w', t'', ran,
      ⟨done.stands.wired, here', ?_, done.stands.storage, done.stands.refs, done.stands.counter⟩, framed, named, done.same,
      done.flags, done.limit, done.root⟩
    exact childReplaced wired here nests octant found done.framed done.stands.nests
      (isNode.trans (decide_eq_true level).symm)

theorem grown {node : Nat} (stands : Stands w p (lod + 1) t (.node data children) s)
    (flags : t.isDirty = true ∧ t.leavesCollapsed = false) (inside : Inside t p lod min name) (level : p.level < 4)
    (gap : Gap t p.level p.index node i) :
    let t' := growChild t p.level p.index node i (placeOf t p.level p.index node i) (getName name (p.level + 1) i)
    Done w (w.set p.tree t') p (lod + 1) t t' (.node data (Function.update children i emptyNode)) s ∧
      toChild (w.set p.tree t').registry p i = some ⟨p.tree, p.level + 1, placeOf t p.level p.index node i⟩ := by
  obtain ⟨wired, here, nests, storage, refs, counter⟩ := stands
  have own := growGrown t p.level p.index node i (getName name (p.level + 1) i)
  obtain ⟨same, info, _⟩ := grownSame own
  have framed := (grownChange wired here level gap own).framed wired here
  obtain ⟨t'', here', named⟩ := framed.stay here (Nat.le_refl _)
  have known := getSet (getInside here.found)
    (growChild t p.level p.index node i (placeOf t p.level p.index node i) (getName name (p.level + 1) i)) p.tree
  rw [if_pos rfl] at known
  obtain rfl := Option.some.inj (known.symm.trans here'.found)
  have infos := (TreeInfo.mk.injEq ..).mp info
  refine ⟨⟨⟨grownWired wired here level gap inside.named own, here', grownNests wired here level gap own nests, ?_, refs,
    counter⟩, framed, named, same, ?_, rfl, rfl⟩, ?_⟩
  · exact infos.2.1.trans storage
  · rw [infos.2.2.1, infos.2.2.2]
    exact flags
  · exact (grownTo wired here level gap own gap.octant).trans (if_pos rfl)

theorem storageMoved {sub : Nat} {u : Tree} {m : Moving} (found : w.get p.tree = some t) (foundSub : w.get sub = some u)
    (run : moveStorageLocationsToSubtree ⟨t.storageMap, u.storageMap, w.chunkTreeRefs⟩ points = some m) :
    moveStorage w p.tree sub points = some { w with
      registry := (w.registry.set p.tree { t with storageMap := m.parent }).set sub { u with storageMap := m.child }
      chunkTreeRefs := m.refs } := by
  unfold moveStorage
  rw [found, foundSub]
  dsimp only
  rw [run]
  rfl

-- Into a sub-tree that is there, with the storage it needs taken from the node's tree.
theorem enterSub {sub : Nat} {info : TreeInfo} {d : Collection} {cs : Nat → Octree} {moved : Moving} {inner : State}
    (follows : Follows limit insert nested lod) (limits : w.nodeLimit = limit)
    (stands : Stands w p (lod + 1) t (.node data children) s) (flags : t.isDirty = true ∧ t.leavesCollapsed = false)
    (inside : Inside t p lod min name) (octant : i < 8) (level : p.level = 4)
    (found : toChild w.registry p i = some (rootOf sub)) (tree : children i = .tree info (.node d cs))
    (has : Has (lod + 1) (child (lod + 1) min i) points.min)
    (move : moveStorageLocationsToSubtree ⟨s.storageMap, info.storageMap, s.refs⟩ points = some moved)
    (run : nested (child (lod + 1) min i) (.node d cs) ⟨moved.child, moved.refs, s.currentId⟩ points = some (x, inner)) :
    ∃ w' t', ((moveStorage w p.tree sub points).bind fun w =>
        insert w (rootOf sub) (child (lod + 1) min i) (getName 0 0 i) points) = some w' ∧
      Done w w' p (lod + 1) t t' (.node data (Function.update children i (.tree ⟨info.id, inner.storageMap, true, false⟩ x)))
        ⟨moved.parent, inner.refs, inner.currentId⟩ := by
  obtain ⟨wired, here, nests, storage, refs, counter⟩ := stands
  obtain ⟨_, _, below⟩ := nestsNode.mp nests
  obtain ⟨_, under⟩ := below i octant _ found
  rw [tree] at under
  obtain ⟨_, _, _, known, under⟩ := under
  obtain ⟨lower, u, equal, there⟩ := wired.childAt here octant found
  cases equal
  have foundSub : w.registry.get sub = some u := there.found
  change (w.registry.get sub).map infoOf = some info at known
  rw [foundSub, Option.map_some, Option.some.injEq] at known
  subst known
  have lods := here.lod
  have lods' := there.lod
  have apart : sub ≠ p.tree := by
    rintro rfl
    obtain rfl : t = u := Option.some.inj (here.found.symm.trans foundSub)
    rw [level] at lods
    unfold treeLevelToLod magnitudeToLod at lods lods'
    change _ = _ - 0 at lods'
    omega
  -- The node's tree has less storage.
  let t1 : Tree := { t with storageMap := moved.parent }
  let u1 : Tree := { u with storageMap := moved.child }
  let r1 := w.registry.set p.tree t1
  have same1 : SameArrays t t1 := ⟨⟨rfl, rfl, rfl, rfl⟩, rfl, rfl⟩
  have same2 : SameArrays u u1 := ⟨⟨rfl, rfl, rfl, rfl⟩, rfl, rfl⟩
  have gets1 := getSet (getInside here.found) t1
  have known1 : r1.get p.tree = some t1 := (gets1 _).trans (if_pos rfl)
  have wired1 : Wired r1 := same1.shape.wired wired here.found
  have here1 : At r1 p (lod + 1) t1 := ⟨known1, here.level, here.inside, here.lod⟩
  have change1 := same1.change here
  have framed1 := change1.framed wired here
  have nests1 : Nests r1 (.node data children) p := nestsArrays wired here same1 nests
  have found1 : toChild r1 p i = some (rootOf sub) :=
    (toChildSet here.found (show t1.subTrees = t.subTrees from rfl) (fun _ _ _ => rfl) p i).trans found
  have sub1 : r1.get sub = some u := (gets1 sub).trans ((if_neg apart).trans foundSub)
  have there1 : At r1 (rootOf sub) lod u := ⟨sub1, there.level, there.inside, there.lod⟩
  have under1 : Nests r1 (.node d cs) (rootOf sub) := change1.nests wired here there (Or.inl (Nat.lt_succ_self lod)) under
  -- The sub-tree has more.
  let r2 := r1.set sub u1
  have known2 : r2.get sub = some u1 := (getSet (getInside sub1) u1 sub).trans (if_pos rfl)
  have wired2 : Wired r2 := same2.shape.wired wired1 sub1
  have there2 : At r2 (rootOf sub) lod u1 := ⟨known2, there.level, there.inside, there.lod⟩
  have framed2 := (same2.change there1).framed wired1 there1
  have under2 : Nests r2 (.node d cs) (rootOf sub) := nestsArrays wired1 there1 same2 under1
  have min_ : u.mortonMin = child (lod + 1) min i :=
    (subTreeMin wired here level octant inside.named found foundSub).trans (inside.child here octant)
  have digit_ : getChildMask (u1.lod + 1) u1.mortonMin = i := by
    change getChildMask (treeLevelToLod u.magnitude (rootOf sub).level + 1) u.mortonMin = i
    rw [← there.lod, min_]
    exact Cells.childOf inside.aligned octant hasSelf
  have rootName := (wired2.formed known2).rootName
  rw [digit_] at rootName
  have cell := cellRoot u1
  rw [digit_] at cell
  let w2 : Trees := { w with registry := r2, chunkTreeRefs := moved.refs }
  have stands2 : Stands w2 (rootOf sub) lod u1 (.node d cs)
      ⟨moved.child, moved.refs, s.currentId⟩ := ⟨wired2, there2, under2, rfl, rfl, counter⟩
  obtain ⟨isNode, w', u', ran, done⟩ := follows (show w2.nodeLimit = limit from limits) stands2 (by
      change (u1.levels 0).nodeIds[0]? = _
      rw [rootName]
      rfl) (childAligned inside.aligned) (cell.trans min_) has run
  have framedSub : Framed r1 w'.registry (rootOf sub) lod := framed2.trans done.framed
  have framed : Framed w.registry w'.registry p (lod + 1) := framed1.trans (framedSub.parent wired1 here1 octant found1)
  obtain ⟨t', here', named⟩ := framed.stay here (Nat.le_refl _)
  have infos := framedSub.infos known1 (Ne.symm apart) (show lod ≤ t1.lod by
    change lod ≤ magnitudeToLod t.magnitude
    unfold treeLevelToLod at lods
    omega)
  rw [here'.found, Option.map_some, Option.some.injEq] at infos
  have fields := (TreeInfo.mk.injEq ..).mp infos
  obtain ⟨t'', found'', same⟩ := framed.trees here.found
  obtain rfl : t' = t'' := Option.some.inj (here'.found.symm.trans found'')
  refine ⟨w', t', ?_, ⟨done.stands.wired, here', ?_, fields.2.1, done.stands.refs, done.stands.counter⟩, framed, named, same,
    ?_, done.limit, done.root⟩
  · rw [storageMoved here.found foundSub (by rw [storage, refs]; exact move), Option.bind_some]
    exact ran
  · refine childReplaced wired1 here1 nests1 octant found1 framedSub ⟨rfl, rfl, isNode, ?_, done.stands.nests⟩ (by
      rw [level]
      rfl)
    rw [done.stands.here.found, Option.map_some, infoOf, done.stands.storage, done.flags.1, done.flags.2, done.same.id]
    rfl
  · rw [fields.2.2.1, fields.2.2.2]
    exact flags

theorem levelLast (here : At w.registry p (lod + 1) t) : (lod + 1) % 5 = 0 ↔ p.level = 4 := by
  have lods := here.lod
  have level := here.level
  unfold treeLevelToLod magnitudeToLod at lods
  omega

theorem enterNext {node skips : Nat} (follows : Follows limit insert nested lod) (limits : w.nodeLimit = limit)
    (stands : Stands w p (lod + 1) t (.node data children) s) (flags : t.isDirty = true ∧ t.leavesCollapsed = false)
    (inside : Inside t p lod min name) (octant : i < 8) (level : p.level < 4) (there : nodeAt t p.level p.index = some node)
    (skipped : (t.levels p.level).skips[p.index]? = some skips) {done : Octree × State}
    (has : Has (lod + 1) (child (lod + 1) min i) points.min)
    (run : TreeBuild.enterChild nested (lod + 1) min (.node data children, s) (i, points) = some done) :
    ∃ x s', done = (.node data (Function.update children i x), s') ∧ x.present = true ∧ ∃ w' t',
      enterChild insert w p min name (lod + 1) i (skips + countSkips node i) points = some w' ∧
        Done w w' p (lod + 1) t t' (.node data (Function.update children i x)) s' := by
  have formed := stands.wired.formed stands.here.found
  have bit := stands.bits there octant
  have place : skips + countSkips node i = placeOf t p.level p.index node i := by
    have start := formed.start stands.here.level (List.getElem?_eq_some_iff.mp there).1
    rw [skipped] at start
    rw [Option.some.inj start]
    rfl
  unfold TreeBuild.enterChild at run
  dsimp only at run
  rw [if_neg fun last => absurd ((levelLast stands.here).mp last) (Nat.ne_of_lt level), setChild inside.aligned] at run
  obtain ⟨⟨x, s'⟩, below, rfl⟩ := Option.map_eq_some_iff.mp run
  have unfolded : enterChild insert w p min name (lod + 1) i (skips + countSkips node i) points =
      insert (if node.testBit i then w else w.set p.tree (growChild t p.level p.index node i (placeOf t p.level p.index node i)
        (getName name (p.level + 1) i))) ⟨p.tree, p.level + 1, placeOf t p.level p.index node i⟩ (child (lod + 1) min i)
        (getName name (p.level + 1) i) points := by
    unfold enterChild
    rw [show w.get p.tree = some t from stands.here.found]
    dsimp only
    rw [show (t.levels p.level).nodes[p.index]? = some node from there]
    dsimp only
    rw [if_neg (Nat.ne_of_lt level), setChild inside.aligned, place]
  rw [unfolded]
  cases here : node.testBit i with
  | true =>
    rw [here] at bit
    rw [if_pos rfl]
    rw [if_pos bit.symm] at below
    have found : toChild w.registry p i = some ⟨p.tree, p.level + 1, placeOf t p.level p.index node i⟩ := by
      rw [childOf stands.here.found, formed.child stands.here.level there here, Option.bind_some, if_pos level]
      rfl
    obtain ⟨present, w', t', ran, done⟩ := enterThere follows limits stands inside octant level found has below
    exact ⟨x, s', rfl, present, w', t', ran, done⟩
  | false =>
    rw [here] at bit
    rw [if_neg Bool.false_ne_true]
    rw [if_neg (by rw [← bit]; exact Bool.false_ne_true)] at below
    obtain ⟨first, found⟩ := grown stands flags inside level ⟨there, octant, here⟩
    rw [← Function.update_self i emptyNode children] at below
    obtain ⟨present, w', t', ran, done⟩ := enterThere follows (first.limit.trans limits) first.stands (inside.next first) octant
      level found has below
    rw [Function.update_idem] at done
    exact ⟨x, s', rfl, present, w', t', ran, first.trans done⟩

theorem hungDone {node : Nat} {morton : Nat} (stands : Stands w p (lod + 1) t (.node data children) s)
    (flags : t.isDirty = true ∧ t.leavesCollapsed = false) (inside : Inside t p lod min name) (level : p.level = 4)
    (gap : Gap t 4 p.index node i) (has : Has (lod + 1) (child (lod + 1) min i) morton) :
    let grown := growTree w t p.tree p.index node i (placeOf t 4 p.index node i) morton
    grown.2 = s.currentId ∧ toChild grown.1.registry p i = some (rootOf s.currentId) ∧ ∃ t',
      Done w grown.1 p (lod + 1) t t' (.node data (Function.update children i (.tree (newTree s.currentId) emptyNode)))
        { s with currentId := s.currentId + 1 } := by
  obtain ⟨wired, here, nests, storage, refs, counter⟩ := stands
  have named := inside.named
  rw [nameAt, level] at named
  have cell := inside.child here gap.octant
  have lods := here.lod
  rw [level] at cell lods
  have place : treeLevelToLod t.magnitude 4 * 3 = t.magnitude * 15 := by
    unfold treeLevelToLod magnitudeToLod
    omega
  rw [place] at cell
  obtain ⟨t', sub, hangs, number⟩ := growHangs wired here level gap named (show maskMin lod morton = _ by
    rw [cell]
    exact floorOf (childAligned inside.aligned) has)
  have wired' := hangs.wired wired here
  have framed := (hangs.change wired here level).framed wired here
  obtain ⟨t'', here', named'⟩ := framed.stay here (Nat.le_refl _)
  obtain rfl : t' = t'' := Option.some.inj ((hangs.own wired here).symm.trans here'.found)
  obtain ⟨same, info⟩ := hungSame hangs.hung
  have fields := (TreeInfo.mk.injEq ..).mp info
  have nests' := hangs.nests wired here level nests
  have way := hangs.way wired here level gap.octant
  rw [if_pos rfl] at way
  rw [← counter]
  exact ⟨number, way, t', ⟨wired', here', nests', fields.2.1.trans storage, refs, hangs.count⟩, framed, named', same,
    by rw [fields.2.2.1, fields.2.2.2]; exact flags, rfl, rfl⟩

theorem enterLast {node skips : Nat} (follows : Follows limit insert nested lod) (limits : w.nodeLimit = limit)
    (stands : Stands w p (lod + 1) t (.node data children) s) (flags : t.isDirty = true ∧ t.leavesCollapsed = false)
    (inside : Inside t p lod min name) (octant : i < 8) (level : p.level = 4) (there : nodeAt t p.level p.index = some node)
    (skipped : (t.levels p.level).skips[p.index]? = some skips) {done : Octree × State}
    (has : Has (lod + 1) (child (lod + 1) min i) points.min)
    (run : TreeBuild.enterChild nested (lod + 1) min (.node data children, s) (i, points) = some done) :
    ∃ x s', done = (.node data (Function.update children i x), s') ∧ x.present = true ∧ ∃ w' t',
      enterChild insert w p min name (lod + 1) i (skips + countSkips node i) points = some w' ∧
        Done w w' p (lod + 1) t t' (.node data (Function.update children i x)) s' := by
  have formed := stands.wired.formed stands.here.found
  have bit := stands.bits there octant
  obtain ⟨_, missing, below⟩ := nestsNode.mp stands.nests
  have place : skips + countSkips node i = placeOf t p.level p.index node i := by
    have start := formed.start stands.here.level (List.getElem?_eq_some_iff.mp there).1
    rw [skipped] at start
    rw [Option.some.inj start]
    rfl
  unfold TreeBuild.enterChild at run
  dsimp only at run
  rw [if_pos ((levelLast stands.here).mpr level), setChild inside.aligned] at run
  unfold enterChild
  rw [show w.get p.tree = some t from stands.here.found]
  dsimp only
  rw [show (t.levels p.level).nodes[p.index]? = some node from there]
  dsimp only
  rw [if_pos level, setChild inside.aligned, place]
  cases here : node.testBit i with
  | true =>
    have index := formed.child stands.here.level there here
    rw [here] at bit
    have found := childOf stands.here.found i
    rw [index, Option.bind_some, if_neg (by omega)] at found
    have listed : ∃ sub, t.subTrees[placeOf t p.level p.index node i]? = some sub := by
      have exists_ := stands.wired.bit stands.here there octant
      rw [here, found, Option.isSome_map] at exists_
      exact Option.isSome_iff_exists.mp exists_.symm
    obtain ⟨sub, at_⟩ := listed
    change toChild w.registry p i = t.subTrees[placeOf t p.level p.index node i]?.map rootOf at found
    rw [at_, Option.map_some] at found
    obtain ⟨kind, under⟩ := below i octant _ found
    rw [level] at kind
    rw [if_pos rfl, at_, Option.map_some]
    dsimp only
    cases own : children i with
    | missing => rw [own] at under; exact under.elim
    | node d cs => rw [own] at kind; cases kind
    | tree info root =>
      rw [own] at run under
      obtain ⟨_, _, isNode, _, _⟩ := under
      cases root with
      | missing => cases isNode
      | tree _ _ => cases isNode
      | node d cs =>
        dsimp only [openTree] at run
        cases move : moveStorageLocationsToSubtree ⟨s.storageMap, info.storageMap, s.refs⟩ points with
        | none => rw [move] at run; cases run
        | some moved =>
          rw [move] at run
          obtain ⟨⟨x, inner⟩, ran, rfl⟩ := Option.map_eq_some_iff.mp run
          obtain ⟨w', t', flat, done⟩ := enterSub follows limits stands flags inside octant level found own has move ran
          exact ⟨_, _, rfl, rfl, w', t', flat, done⟩
  | false =>
    rw [here] at bit
    have none_ : children i = .missing := by
      cases own : children i with
      | missing => rfl
      | node d cs => rw [own] at bit; cases bit
      | tree info root => rw [own] at bit; cases bit
    rw [if_neg Bool.false_ne_true]
    rw [none_] at run
    dsimp only [openTree] at run ⊢
    cases move : moveStorageLocationsToSubtree ⟨s.storageMap, (newTree s.currentId).storageMap, s.refs⟩ points with
    | none => rw [move] at run; cases run
    | some moved =>
      rw [move] at run
      obtain ⟨⟨x, inner⟩, ran, rfl⟩ := Option.map_eq_some_iff.mp run
      obtain ⟨number, found, t1, first⟩ := hungDone stands flags inside level ⟨level ▸ there, octant, here⟩
        has
      rw [level]
      rw [number]
      obtain ⟨w', t', flat, done⟩ := enterSub follows (first.limit.trans limits) first.stands first.flags (inside.next first)
        octant level found (Function.update_self ..) has move ran
      rw [Function.update_idem] at done
      exact ⟨_, _, rfl, rfl, w', t', flat, first.trans done⟩

theorem enterFollows {node skips : Nat} (follows : Follows limit insert nested lod) (limits : w.nodeLimit = limit)
    (stands : Stands w p (lod + 1) t (.node data children) s) (flags : t.isDirty = true ∧ t.leavesCollapsed = false)
    (inside : Inside t p lod min name) (octant : i < 8) (there : nodeAt t p.level p.index = some node)
    (skipped : (t.levels p.level).skips[p.index]? = some skips) {done : Octree × State}
    (has : Has (lod + 1) (child (lod + 1) min i) points.min)
    (run : TreeBuild.enterChild nested (lod + 1) min (.node data children, s) (i, points) = some done) :
    ∃ x s', done = (.node data (Function.update children i x), s') ∧ x.present = true ∧ ∃ w' t',
      enterChild insert w p min name (lod + 1) i (skips + countSkips node i) points = some w' ∧
        Done w w' p (lod + 1) t t' (.node data (Function.update children i x)) s' := by
  have five := stands.here.level
  by_cases level : p.level < 4
  · exact enterNext follows limits stands flags inside octant level there skipped has run
  · exact enterLast follows limits stands flags inside octant (by omega) there skipped has run

/-! ## The children in turn -/

def presentBefore (children : Nat → Octree) (n : Nat) : Nat := ((List.range n).filter fun i => (children i).present).length

theorem presentNext (children : Nat → Octree) (n : Nat) :
    presentBefore children (n + 1) = presentBefore children n + if (children n).present then 1 else 0 := by
  unfold presentBefore
  rw [List.range_succ, List.filter_append, List.length_append, List.filter_cons]
  split <;> rfl

theorem presentOther (children : Nat → Octree) (x : Octree) (n : Nat) :
    presentBefore (Function.update children n x) n = presentBefore children n := by
  unfold presentBefore
  congr 1
  refine List.filter_congr fun j mem => ?_
  rw [Function.update_of_ne (Nat.ne_of_lt (List.mem_range.mp mem))]

theorem presentSkips {node n : Nat} (stands : Stands w p lod t (.node data children) s) (most : n ≤ 8)
    (there : nodeAt t p.level p.index = some node) : countSkips node n = presentBefore children n := by
  unfold countSkips presentBefore
  congr 1
  refine List.filter_congr fun j mem => ?_
  exact stands.bits there (Nat.lt_of_lt_of_le (List.mem_range.mp mem) most)

theorem foldFiltered {α β γ : Type} (f : β → γ) (g : α → γ → Option α) (keep : β → Bool) (l : List β) (a : α) :
    ((l.filter keep).map f).foldlM g a = l.foldlM (fun a b => if keep b then g a (f b) else some a) a := by
  induction l generalizing a with
  | nil => rfl
  | cons b l ih =>
    rw [List.filter_cons, List.foldlM_cons]
    split
    · rw [List.map_cons, List.foldlM_cons]
      exact bind_congr fun a => ih a
    · exact ih a

theorem partsFollow {parts : TreeBuild.Children} (follows : Follows limit insert nested lod) (limits : w.nodeLimit = limit)
    (stands : Stands w p (lod + 1) t (.node data children) s) (flags : t.isDirty = true ∧ t.leavesCollapsed = false)
    (inside : Inside t p lod min name) (near : Near (lod + 1) min parts) {n : Nat} (most : n ≤ 8) {done : Octree × State}
    (run : (List.range n).foldlM (fun place i => if !(parts i).data.isEmpty then
      TreeBuild.enterChild nested (lod + 1) min place (i, parts i) else some place) (.node data children, s) = some done) :
    ∃ children' s' w' t', done = (.node data children', s') ∧
      (List.range n).foldlM (enterPart insert p min name (lod + 1) parts) (w, 0) = some (w', presentBefore children' n) ∧
      Done w w' p (lod + 1) t t' (.node data children') s' := by
  induction n generalizing done with
  | zero =>
    cases run
    exact ⟨children, s, w, t, rfl, rfl, .refl stands flags⟩
  | succ n ih =>
    rw [List.range_succ, List.foldlM_append] at run
    obtain ⟨before, front, last⟩ := Option.bind_eq_some_iff.mp run
    obtain ⟨children', s', w', t', rfl, flat, first⟩ := ih (Nat.le_of_succ_le most) front
    rw [List.foldlM_cons] at last
    obtain ⟨after, step, same⟩ := Option.bind_eq_some_iff.mp last
    cases same
    obtain ⟨node, there⟩ := atHere first.stands.here
    have formed := first.stands.wired.formed first.stands.here.found
    have skipped := formed.start first.stands.here.level (List.getElem?_eq_some_iff.mp there).1
    have count := presentSkips first.stands (Nat.le_of_succ_le most) there
    have part : enterPart insert p min name (lod + 1) parts (w', presentBefore children' n) n =
        if (parts n).data.isEmpty then some (w', presentBefore children' (n + 1)) else
          (enterChild insert w' p min name (lod + 1) n (total wide ((t'.levels p.level).nodes.take p.index) +
            countSkips node n) (parts n)).map fun w => (w, presentBefore children' n + 1) := by
      unfold enterPart
      rw [show w'.get p.tree = some t' from first.stands.here.found]
      dsimp only
      rw [show (t'.levels p.level).nodes[p.index]? = some node from there, skipped]
      dsimp only
      rw [first.stands.bits there most, presentNext, count]
      split
      · split <;> rfl
      · rfl
    rw [List.range_succ, List.foldlM_append, flat, Option.bind_eq_bind, Option.bind_some, List.foldlM_cons, part]
    split at step
    · rename_i comes
      obtain ⟨x, s2, rfl, present, w2, t2, ran, next⟩ := enterFollows follows (first.limit.trans limits) first.stands first.flags
        (inside.next first) most there skipped (near n most (Or.inr (by simpa using comes))) step
      refine ⟨_, s2, w2, t2, rfl, ?_, first.trans next⟩
      rw [if_neg (by simpa using comes), ran, presentNext, presentOther, Function.update_self, present]
      rfl
    · rename_i stays
      cases step
      refine ⟨children', s', w', t', rfl, ?_, first⟩
      rw [if_pos (by simpa using stays)]
      rfl

end

/-! ## The whole insertion -/

section
variable {reads : Location → Option Points} {limit : Nat} {w : Trees} {p : Position} {lod : Nat} {t : Tree}
variable {data data' : Collection} {children : Nat → Octree} {s : State}

theorem flagged (m : InputStorageMap) (stands : Stands w p lod t (.node data children) s) :
    let t' := { t with isDirty := true, leavesCollapsed := false, storageMap := m }
    Done w (w.set p.tree t') p lod t t' (.node data children) { s with storageMap := m } :=
  touched stands ⟨⟨rfl, rfl, rfl, rfl⟩, fun _ => rfl, fun _ => rfl, fun _ => rfl, fun _ => rfl, rfl⟩ (fun _ _ _ => rfl)
    stands.dataHere rfl ⟨rfl, rfl⟩

theorem flaggedData (m : InputStorageMap) (stands : Stands w p lod t (.node data children) s) :
    let t' := setData { t with isDirty := true, leavesCollapsed := false, storageMap := m } p.level p.index data'
    Done w (w.set p.tree t') p lod t t' (.node data' children) { s with storageMap := m } := by
  let u : Tree := { t with isDirty := true, leavesCollapsed := false, storageMap := m }
  have at_ := setDataAt u p.level p.index data'
  have shape := @setDataShape u p.level p.index data'
  refine touched stands ⟨⟨rfl, rfl, rfl, rfl⟩, shape.nodes, shape.skips, shape.nodeIds, shape.lengths, rfl⟩
    (fun l k other => ?_) ?_ rfl ⟨rfl, rfl⟩
  · rw [at_, if_neg other]
    rfl
  · rw [at_, if_pos ⟨rfl, rfl⟩]
    exact congrArg (Option.map fun _ => data') stands.dataHere

-- What the arrays make of a node that takes the points, one way or the other.
theorem stepFollows {nested : TreeBuild.Insert} {fuel min name : Nat} {points : Collection} {done : Octree × State}
    (follows : Follows limit (subTreeInsertPoints reads fuel) nested lod) (limits : w.nodeLimit = limit)
    (stands : Stands w p (lod + 1) t (.node data children) s) (inside : Inside t p lod min name)
    (has : Has (lod + 2) min points.min)
    (parted : ∀ {after}, ((if isLeafNode children = true ∧ 0 < data.pointCount then
        splitPointsToChildren reads (lod + 1) min (s.storageMap, fun _ => empty) data
      else some (s.storageMap, fun _ => empty)).bind fun s =>
        if 0 < points.pointCount then splitPointsToChildren reads (lod + 1) min s points else some s) = some after →
      Near (lod + 1) min after.2)
    (run : insertNode reads limit nested (lod + 1) min (.node data children) s points = some done) :
    ∃ data' children' s' w' t', done = (.node data' children', s') ∧
      subTreeInsertPoints reads (fuel + 1) w p min name points = some w' ∧
      Done w w' p (lod + 1) t t' (.node data' children') s' := by
  obtain ⟨node, there⟩ := atHere stands.here
  have formed := stands.wired.formed stands.here.found
  have start := formed.start stands.here.level (List.getElem?_eq_some_iff.mp there).1
  have leaf := stands.leaf there
  have storage := stands.storage
  have own : { s with storageMap := t.storageMap } = s := by rw [storage]
  have lods := stands.here.lod
  have deeper : ¬(t.magnitude = 0 ∧ p.level = 4) := by
    rintro ⟨zero, four⟩
    rw [zero, four] at lods
    cases lods
  have inner : node ≠ 0 ↔ isLeafNode children = false := by
    rw [Ne, leaf, Bool.not_eq_true]
  unfold subTreeInsertPoints
  rw [show w.get p.tree = some t from stands.here.found]
  dsimp only
  rw [show (t.levels p.level).nodes[p.index]? = some node from there, start,
    show (t.levels p.level).data[p.index]? = some data from stands.dataHere]
  dsimp only
  rw [← lods, limits]
  unfold insertNode arrange at run
  dsimp only at run
  by_cases route : points.minLod < lod + 1 ∧ isLeafNode children = false
  · rw [if_pos route] at run
    rw [if_pos ⟨route.1, inner.mpr route.2⟩]
    obtain ⟨after, step, same⟩ := Option.bind_eq_some_iff.mp run
    cases same
    have first := flagged t.storageMap stands
    dsimp only at first
    rw [own] at first
    obtain ⟨x, s', rfl, _, w', t', ran, next⟩ := enterFollows follows (first.limit.trans limits) first.stands first.flags
      (inside.next first) (digitLt _ _) there start (childDigit inside.aligned has) step
    exact ⟨data, _, s', w', t', rfl, ran, first.trans next⟩
  · rw [if_neg route] at run
    rw [if_neg fun both => route ⟨both.1, inner.mp both.2⟩]
    by_cases keep : isLeafNode children = true ∧ data.pointCount + points.pointCount ≤ limit
    · rw [if_pos keep] at run
      rw [if_pos ⟨leaf.mpr keep.1, keep.2⟩]
      cases run
      have first := @flaggedData w p _ t data (pointsDataAdd data points) children s t.storageMap stands
      dsimp only at first
      rw [own] at first
      exact ⟨_, children, s, _, _, rfl, rfl, first⟩
    · rw [if_neg keep] at run
      rw [if_neg fun both => keep ⟨leaf.mp both.1, both.2⟩, if_neg deeper]
      unfold splitNode
      dsimp only at run ⊢
      have split_ : (node = 0 ∧ 0 < data.pointCount) ↔ isLeafNode children = true ∧ 0 < data.pointCount := by rw [leaf]
      rw [if_congr split_ rfl rfl, storage]
      generalize known : ((if isLeafNode children = true ∧ 0 < data.pointCount then
          splitPointsToChildren reads (lod + 1) min (s.storageMap, fun _ => empty) data
        else some (s.storageMap, fun _ => empty)).bind fun s =>
          if 0 < points.pointCount then splitPointsToChildren reads (lod + 1) min s points else some s) = all at run ⊢
      cases all with
      | none => cases run
      | some all =>
        obtain ⟨m, parts⟩ := all
        dsimp only [Option.map_some] at run
        rw [foldFiltered] at run
        have first : ∃ t1, t1 = (if node = 0 ∧ 0 < data.pointCount then
              setData { t with isDirty := true, leavesCollapsed := false, storageMap := m } p.level p.index empty
            else { t with isDirty := true, leavesCollapsed := false, storageMap := m }) ∧
            Done w (w.set p.tree t1) p (lod + 1) t t1
              (.node (if isLeafNode children = true ∧ 0 < data.pointCount then empty else data) children)
              { s with storageMap := m } := by
          refine ⟨_, rfl, ?_⟩
          by_cases split : isLeafNode children = true ∧ 0 < data.pointCount
          · rw [if_pos split, if_pos ⟨leaf.mpr split.1, split.2⟩]
            exact flaggedData m stands
          · rw [if_neg split, if_neg fun both => split ⟨leaf.mp both.1, both.2⟩]
            exact flagged m stands
        obtain ⟨t1, same, first⟩ := first
        obtain ⟨children', s', w', t', rfl, flat, next⟩ := partsFollow follows (first.limit.trans limits) first.stands first.flags
          (inside.next first) (parted known) (Nat.le_refl 8) run
        refine ⟨_, children', s', w', t', rfl, ?_, first.trans next⟩
        rw [Option.map_some, Option.bind_some, ← same, flat]
        rfl

-- With as many steps as levels are left.
theorem insertFollows {u : Units} {Q : InputId → Nat → Nat → List Subset → Prop} (env : Env u reads limit Q)
    (pointed : Pointed u) {fuel : Nat} (enough : lod < fuel) :
    Follows limit (subTreeInsertPoints reads fuel) (allowedOnly u Q (insertPoints reads limit lod) lod) lod := by
  induction lod generalizing fuel with
  | zero =>
    intro w p t data children s min name points node' s' limits stands named aligned cell has run
    obtain ⟨fuel, rfl⟩ := Nat.exists_eq_succ_of_ne_zero (Nat.ne_of_gt enough)
    obtain ⟨allowed, run⟩ := allowedRun run
    obtain ⟨trees, rest, placed⟩ := allowed.placed
    obtain ⟨isLeaf, fits, kept, _⟩ := deepestSpec env allowed.cell placed allowed.gathered
    unfold insertPoints at run
    rw [kept] at run
    cases run
    obtain ⟨node, there⟩ := atHere stands.here
    have start := (stands.wired.formed stands.here.found).start stands.here.level (List.getElem?_eq_some_iff.mp there).1
    have zero := (stands.leaf there).mpr isLeaf
    have storage := stands.storage
    have own : { s with storageMap := t.storageMap } = s := by rw [storage]
    have first := @flaggedData w p _ t data (pointsDataAdd data points) children s t.storageMap stands
    dsimp only at first
    rw [own] at first
    refine ⟨rfl, _, _, ?_, first⟩
    unfold subTreeInsertPoints
    rw [show w.get p.tree = some t from stands.here.found]
    dsimp only
    rw [show (t.levels p.level).nodes[p.index]? = some node from there, start,
      show (t.levels p.level).data[p.index]? = some data from stands.dataHere]
    dsimp only
    rw [← stands.here.lod, limits, if_neg (fun both => absurd both.1 (Nat.not_lt_zero _)), if_pos ⟨zero, fits⟩]
  | succ lod ih =>
    intro w p t data children s min name points node' s' limits stands named aligned cell has run
    obtain ⟨fuel, rfl⟩ := Nat.exists_eq_succ_of_ne_zero (Nat.ne_of_gt (Nat.lt_of_le_of_lt (Nat.zero_le _) enough))
    obtain ⟨allowed, run⟩ := allowedRun run
    obtain ⟨trees, rest, placed⟩ := allowed.placed
    obtain ⟨data', children', s2, w', t', same, flat, done⟩ := stepFollows (ih (Nat.lt_of_succ_lt_succ enough)) limits stands
      ⟨named, aligned, cell⟩ has (fun split => givenNear env pointed allowed.cell placed allowed.gathered split)
      (allowedNode env allowed run)
    cases same
    exact ⟨rfl, w', t', flat, done⟩

end

end Dewfall.ArrayInsert
