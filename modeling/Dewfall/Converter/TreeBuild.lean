import Dewfall.Converter.PointSplitter

/-! Building the tree of trees: routing a unit to the leaves, splitting leaves that overflow, creating
sub-trees and re-parenting the root. A tree's five levels are nested here: a missing child is a bit
that is not set, and a tree is found where its parent's last level refers to it. An undefined shift
or a unit the storage map lacks gives no result; the arrays' skip counts are left out. -/
namespace Dewfall.TreeBuild
open StorageMap PointSplitter MortonTree

structure ChunkRef where
  treeCount : Nat
  pointCount : Nat
  deriving DecidableEq, Repr

abbrev ChunkRefs := InputId → Option ChunkRef

structure TreeInfo where
  id : Nat
  storageMap : InputStorageMap
  isDirty : Bool
  leavesCollapsed : Bool

inductive Octree where
  | missing
  | node (data : Collection) (children : Nat → Octree)
  -- Stands where a tree is entered; the root of a tree is a node.
  | tree (info : TreeInfo) (root : Octree)

def Octree.present : Octree → Bool
  | .missing => false
  | _ => true

def isLeafNode (children : Nat → Octree) : Bool := (List.range 8).all fun i => !(children i).present

def emptyNode : Octree := .node empty fun _ => .missing
def newTree (id : Nat) : TreeInfo := ⟨id, StorageMap.fresh, false, false⟩

/-! ## Points -/

def pointsDataInitialize (h : Header) : Collection :=
  ⟨h.pointCount, h.mortonMin, h.mortonMax, h.lodSpan, [⟨h.inputId, 0, h.pointCount⟩]⟩

def pointsDataAdd (dest toAdd : Collection) : Collection :=
  if dest.pointCount = 0 then toAdd
  else
    let min := if toAdd.min < dest.min then toAdd.min else dest.min
    let max := if dest.max < toAdd.max then toAdd.max else dest.max
    ⟨dest.pointCount + toAdd.pointCount, min, max, mortonLod min max, dest.data ++ toAdd.data⟩

-- What a read of a location gives; a read that fails gives nothing.
variable (reads : Location → Option Points)

abbrev Children := Nat → Collection

def addPart (id : InputId) (s : InputStorageMap × Children) (part : Part) : Option (InputStorageMap × Children) :=
  (s.1.addRef id).map fun m => (m, Function.update s.2 part.child (addSubsetToChild part (s.2 part.child)))

def splitSubset (lod nodeMin : Nat) (s : InputStorageMap × Children) (p : Subset) :
    Option (InputStorageMap × Children) :=
  match s.1.location p.inputId 0 with
  | none => none
  | some location =>
    match reads location with
    | none => some s
    | some points => (pointBufferSubdivide points p lod nodeMin).foldlM (addPart p.inputId) s

-- The subsets give up their references once all of them are split.
def splitPointsToChildren (lod nodeMin : Nat) (s : InputStorageMap × Children) (points : Collection) :
    Option (InputStorageMap × Children) :=
  match points.data.foldlM (splitSubset reads lod nodeMin) s with
  | none => none
  | some (m, children) =>
    (points.data.foldlM (fun (m : InputStorageMap) p => m.dereferenceDiscard p.inputId) m).map fun m => (m, children)

/-! ## Sub-trees -/

structure Moving where
  parent : InputStorageMap
  child : InputStorageMap
  refs : ChunkRefs

def moveStorageLocation (s : Moving) (p : Subset) : Option Moving :=
  match s.parent.dereference p.inputId with
  | none => none
  | some (parent, attributesId, storage) =>
    let parentErased := s.parent.contains p.inputId && !parent.contains p.inputId
    let childCreated := !s.child.contains p.inputId
    let child :=
      if childCreated then some (s.child.addStorage p.inputId attributesId storage) else s.child.addRef p.inputId
    -- Missing entry: written before the registry had them.
    let refs := if isChunk p.inputId then
        Function.update s.refs p.inputId ((s.refs p.inputId).map fun r =>
          { r with treeCount := r.treeCount + (if childCreated then 1 else 0) - (if parentErased then 1 else 0) })
      else s.refs
    child.map fun child => ⟨parent, child, refs⟩

def moveStorageLocationsToSubtree (s : Moving) (points : Collection) : Option Moving :=
  points.data.foldlM moveStorageLocation s

/-! ## Insertion -/

-- The tree that is inserted into, and what the registry keeps for all of them.
structure State where
  storageMap : InputStorageMap
  refs : ChunkRefs
  currentId : Nat

variable (nodeLimit : Nat)

-- What a node keeps, and the parts that go on to its children.
def arrange (lod min : Nat) (data : Collection) (children : Nat → Octree) (s : State) (points : Collection) :
    Option (Octree × State × List (Nat × Collection)) :=
  if points.minLod < lod ∧ isLeafNode children = false then
    some (.node data children, s, [(getChildMask lod points.min, points)])
  else if isLeafNode children ∧ data.pointCount + points.pointCount ≤ nodeLimit then
    some (.node (pointsDataAdd data points) children, s, [])
  else
    let split := isLeafNode children ∧ 0 < data.pointCount
    let old := if split then splitPointsToChildren reads lod min (s.storageMap, fun _ => empty) data
      else some (s.storageMap, fun _ => empty)
    let all := old.bind fun s => if 0 < points.pointCount then splitPointsToChildren reads lod min s points else some s
    all.map fun (m, parts) =>
      (.node (if split then empty else data) children, { s with storageMap := m },
        ((List.range 8).filter fun i => !(parts i).data.isEmpty).map fun i => (i, parts i))

abbrev Insert := Nat → Octree → State → Collection → Option (Octree × State)

-- A tree that is missing is added to the registry.
def openTree (child : Octree) (currentId : Nat) : TreeInfo × Octree × Nat :=
  match child with
  | .tree info root => (info, root, currentId)
  | _ => (newTree currentId, emptyNode, currentId + 1)

-- The current level is the last of its tree where the level of detail is a multiple of five.
def enterChild (insert : Insert) (lod min : Nat) (place : Octree × State) (part : Nat × Collection) :
    Option (Octree × State) :=
  match place with
  | (.node data children, s) =>
    let newMin := setChildMask lod part.1 min
    if lod % 5 = 0 then
      let (info, root, currentId) := openTree (children part.1) s.currentId
      match moveStorageLocationsToSubtree ⟨s.storageMap, info.storageMap, s.refs⟩ part.2 with
      | none => none
      | some moved =>
        (insert newMin root ⟨moved.child, moved.refs, currentId⟩ part.2).map fun (root, inner) =>
          let info : TreeInfo := ⟨info.id, inner.storageMap, true, false⟩
          (.node data (Function.update children part.1 (.tree info root)),
            ⟨moved.parent, inner.refs, inner.currentId⟩)
    else
      let child := if (children part.1).present then children part.1 else emptyNode
      (insert newMin child s part.2).map fun (child, s) =>
        (.node data (Function.update children part.1 child), s)
  | _ => none

-- At the finest level of the smallest tree there is no level below to split to.
def insertPoints : Nat → Insert
  | 0, min, .node data children, s, points =>
    match arrange reads nodeLimit 0 min data children s points with
    | some (node, s, []) => some (node, s)
    | _ => none
  | lod + 1, min, .node data children, s, points =>
    match arrange reads nodeLimit (lod + 1) min data children s points with
    | none => none
    | some (node, s, parts) => parts.foldlM (enterChild (insertPoints lod) (lod + 1) min) (node, s)
  | _, _, _, _, _ => none

/-! ## The registry -/

structure Root where
  magnitude : Nat
  mortonMin : Nat
  info : TreeInfo
  top : Octree

def Root.lod (r : Root) : Nat := magnitudeToLod r.magnitude
def Root.mortonMax (r : Root) : Nat := maskMax r.lod r.mortonMin

structure Registry where
  nodeLimit : Nat
  currentId : Nat
  currentCollapsedNodeId : Nat
  chunkTreeRefs : ChunkRefs
  root : Option Root

def newRegistry (nodeLimit : Nat) : Registry := ⟨nodeLimit, 0, 2 ^ 62, fun _ => none, none⟩

-- Magnitude twelve shifts past the largest code.
def treeInitialize (currentId : Nat) (h : Header) : Option Root :=
  let magnitude := mortonMagnitude h.mortonMin h.mortonMax
  if 12 ≤ magnitude then none
  else some ⟨magnitude, maskMin (magnitudeToLod magnitude) h.mortonMin, newTree currentId, emptyNode⟩

-- The node at `childLod + above` on the way down to the child, and the trees entered on that way.
def insertTreeInTree (childMin childLod : Nat) (child : Octree) : Nat → Nat → Octree × Nat
  | 0, currentId => (child, currentId)
  | above + 1, currentId =>
    let lod := childLod + above + 1
    let (below, nextId) := insertTreeInTree childMin childLod child above
      (if lod % 5 = 4 then currentId + 1 else currentId)
    let node := .node empty (Function.update (fun _ => .missing) (getChildMask lod childMin) below)
    (if lod % 5 = 4 then .tree (newTree currentId) node else node, nextId)

def reparentTree (currentId : Nat) (tree : Root) (possibleMin possibleMax : Nat) : Option (Root × Nat) :=
  let newMin := if tree.mortonMin < possibleMin then tree.mortonMin else possibleMin
  let newMax := if tree.mortonMax < possibleMax then possibleMax else tree.mortonMax
  let magnitude := mortonMagnitude newMin newMax
  if 12 ≤ magnitude ∨ magnitude ≤ tree.magnitude then none
  else
    let lod := magnitudeToLod magnitude
    match insertTreeInTree tree.mortonMin tree.lod (.tree tree.info tree.top) (lod - tree.lod) currentId with
    | (.tree info top, currentId) => some (⟨magnitude, maskMin lod newMin, info, top⟩, currentId)
    | _ => none

-- The tree that takes the unit: the first one, the root, or a new parent of it.
def rootFor (r : Registry) (h : Header) : Option (Root × Nat) :=
  match r.root with
  | none => (treeInitialize r.currentId h).map fun root => (root, r.currentId + 1)
  | some root =>
    if h.mortonMin < root.mortonMin ∨ root.mortonMax < h.mortonMax then
      reparentTree r.currentId root h.mortonMin h.mortonMax
    else some (root, r.currentId)

def treeAddPoints (r : Registry) (h : Header) (attributesId : Nat) (locations : List Location) : Option Registry :=
  match rootFor r h with
  | none => none
  | some (root, currentId) =>
    let storageMap := root.info.storageMap.addStorage h.inputId attributesId locations
    let refs := if isChunk h.inputId then Function.update r.chunkTreeRefs h.inputId (some ⟨1, h.pointCount⟩)
      else r.chunkTreeRefs
    (insertPoints reads r.nodeLimit root.lod root.mortonMin root.top ⟨storageMap, refs, currentId⟩
      (pointsDataInitialize h)).map fun (top, s) =>
        let info : TreeInfo := ⟨root.info.id, s.storageMap, true, false⟩
        { r with
          currentId := s.currentId
          chunkTreeRefs := s.refs
          root := some ⟨root.magnitude, root.mortonMin, info, top⟩ }

end Dewfall.TreeBuild
