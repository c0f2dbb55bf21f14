import Dewfall.Converter.LodWork

/-! Insertion over the arrays of the trees: routing a unit down the levels, splitting leaves that overflow, putting
children and sub-trees into the middle of the arrays. An access outside an array, or to a unit that a map lacks, gives
no result. The trees' states and bands, the debug shadow arrays and assertions are left out. -/
namespace Dewfall.ArrayBuild
open StorageMap PointSplitter MortonTree TreeReparent
open LodWork (treeLevelToLod setData)
open TreeBuild (ChunkRefs Moving Children splitPointsToChildren pointsDataAdd pointsDataInitialize
  moveStorageLocationsToSubtree)

structure Trees where
  registry : Registry
  chunkTreeRefs : ChunkRefs
  nodeLimit : Nat
  root : Option Nat

def Trees.get (w : Trees) (id : Nat) : Option Tree := w.registry.get id
def Trees.set (w : Trees) (id : Nat) (t : Tree) : Trees := { w with registry := w.registry.set id t }

def newTrees (nodeLimit : Nat) : Trees := ⟨⟨[], 0⟩, fun _ => none, nodeLimit, none⟩

def moveStorage (w : Trees) (parent sub : Nat) (points : Collection) : Option Trees :=
  match w.get parent, w.get sub with
  | some p, some s =>
    (moveStorageLocationsToSubtree ⟨p.storageMap, s.storageMap, w.chunkTreeRefs⟩ points).map fun m =>
      { (w.set parent { p with storageMap := m.parent }).set sub { s with storageMap := m.child } with
        chunkTreeRefs := m.refs }
  | _, _ => none

def growChild (t : Tree) (level skip node i subSkip childName : Nat) : Tree :=
  let t := setNode t level skip (node ||| 1 <<< i)
  let t := increaseSkips (allocChildren t (level + 1) subSkip) level skip
  setName t (level + 1) subSkip childName

def hangTree (t : Tree) (skip node i subSkip subTree : Nat) : Tree :=
  increaseSkips (addSubTree (setNode t 4 skip (node ||| 1 <<< i)) subSkip subTree) 4 skip

def growTree (w : Trees) (t : Tree) (id skip node i subSkip morton : Nat) : Trees × Nat :=
  let (r, subTree) := treeCacheAddTree w.registry
  let t := hangTree t skip node i subSkip subTree.id
  let sub := treeInitializeSub t morton subTree
  ({ w with registry := (r.set id t).set sub.id sub }, sub.id)

-- The smallest code of the node and its name go with the points.
abbrev Insert := Trees → Position → Nat → Nat → Collection → Option Trees

def enterChild (insert : Insert) (w : Trees) (p : Position) (min name lod i subSkip : Nat) (points : Collection) :
    Option Trees :=
  match w.get p.tree with
  | none => none
  | some t =>
    match (t.levels p.level).nodes[p.index]? with
    | none => none
    | some node =>
      let newMin := setChildMask lod i min
      if p.level = 4 then
        let place := if node.testBit i then t.subTrees[subSkip]?.map fun sub => (w, sub)
          else some (growTree w t p.tree p.index node i subSkip points.min)
        match place with
        | none => none
        | some (w, sub) =>
          (moveStorage w p.tree sub points).bind fun w => insert w (rootOf sub) newMin (getName 0 0 i) points
      else
        let childName := getName name (p.level + 1) i
        let w := if node.testBit i then w else w.set p.tree (growChild t p.level p.index node i subSkip childName)
        insert w ⟨p.tree, p.level + 1, subSkip⟩ newMin childName points

-- `child_count` goes over the children there are, and those that were just added.
def enterPart (insert : Insert) (p : Position) (min name lod : Nat) (parts : Children) (s : Trees × Nat) (i : Nat) :
    Option (Trees × Nat) :=
  match s.1.get p.tree with
  | none => none
  | some t =>
    let l := t.levels p.level
    match l.nodes[p.index]?, l.skips[p.index]? with
    | some node, some skips =>
      if (parts i).data.isEmpty then some (s.1, if node.testBit i then s.2 + 1 else s.2)
      else (enterChild insert s.1 p min name lod i (skips + s.2) (parts i)).map fun w => (w, s.2 + 1)
    | _, _ => none

variable (reads : Location → Option Points)

-- The leaf's own points are split before those that come.
def splitNode (t : Tree) (p : Position) (lod min node : Nat) (data points : Collection) : Option (Tree × Children) :=
  let split := node = 0 ∧ 0 < data.pointCount
  let own := if split then splitPointsToChildren reads lod min (t.storageMap, fun _ => empty) data
    else some (t.storageMap, fun _ => empty)
  let all := own.bind fun s => if 0 < points.pointCount then splitPointsToChildren reads lod min s points else some s
  all.map fun (m, parts) =>
    let t := { t with storageMap := m }
    (if split then setData t p.level p.index empty else t, parts)

def subTreeInsertPoints : Nat → Insert
  | 0, _, _, _, _, _ => none
  | fuel + 1, w, p, min, name, points =>
    match w.get p.tree with
    | none => none
    | some t =>
      let t := { t with isDirty := true, leavesCollapsed := false }
      let l := t.levels p.level
      match l.nodes[p.index]?, l.skips[p.index]?, l.data[p.index]? with
      | some node, some skips, some data =>
        let lod := treeLevelToLod t.magnitude p.level
        if points.minLod < lod ∧ node ≠ 0 then
          let childMask := getChildMask lod points.min
          enterChild (subTreeInsertPoints fuel) (w.set p.tree t) p min name lod childMask
            (skips + countSkips node childMask) points
        else if node = 0 ∧ data.pointCount + points.pointCount ≤ w.nodeLimit then
          some (w.set p.tree (setData t p.level p.index (pointsDataAdd data points)))
        -- The last level of the smallest tree has none below it.
        else if t.magnitude = 0 ∧ p.level = 4 then none
        else
          (splitNode reads t p lod min node data points).bind fun (t, parts) =>
            ((List.range 8).foldlM (enterPart (subTreeInsertPoints fuel) p min name lod parts) (w.set p.tree t, 0)).map
              Prod.fst
      | _, _, _ => none

-- A shift past the largest code gives no result.
def treeInitialize (w : Trees) (h : Header) : Option (Trees × Nat) :=
  let magnitude := mortonMagnitude h.mortonMin h.mortonMax
  let lod := magnitudeToLod magnitude
  if 12 ≤ magnitude then none
  else
    let (r, tree) := treeCacheAddTree w.registry
    let tree := pushRoot { tree with
      magnitude := magnitude
      mortonMin := maskMin lod h.mortonMin
      mortonMax := maskMax lod h.mortonMin
      isDirty := true } (getName 0 0 (getChildMask (lod + 1) h.mortonMin))
    some ({ w with registry := r.set tree.id tree }, tree.id)

def rootFor (w : Trees) (h : Header) : Option (Trees × Nat) :=
  match w.root with
  | none => treeInitialize w h
  | some id =>
    match w.get id with
    | none => none
    | some tree =>
      if h.mortonMin < tree.mortonMin ∨ tree.mortonMax < h.mortonMax then
        (reparentTree w.registry id h.mortonMin h.mortonMax).map fun (r, id) => ({ w with registry := r }, id)
      else some (w, id)

-- As many levels as the largest tree of trees has.
def treeAddPoints (w : Trees) (h : Header) (attributesId : Nat) (locations : List Location) : Option Trees :=
  match rootFor w h with
  | none => none
  | some (w, id) =>
    match w.get id with
    | none => none
    | some tree =>
      let points := pointsDataInitialize h
      let name := getName 0 0 (getChildMask (tree.lod + 1) points.min)
      let tree := { tree with
        storageMap := tree.storageMap.addStorage h.inputId attributesId locations
        leavesCollapsed := false }
      let refs := if isChunk h.inputId then Function.update w.chunkTreeRefs h.inputId (some ⟨1, h.pointCount⟩)
        else w.chunkTreeRefs
      subTreeInsertPoints reads 60 { w.set id tree with chunkTreeRefs := refs, root := some id } (rootOf id) tree.mortonMin
        name points

end Dewfall.ArrayBuild
