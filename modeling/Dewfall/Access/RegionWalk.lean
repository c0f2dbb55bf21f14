import Dewfall.Core.TreeArrays
import Dewfall.General.Descent
import Mathlib.Order.Basic

/-! The octree descent of a query over what is resident of a registry. Coordinates are of any linear
order, with the midpoint and the decoding of a code as parameters; the running total is not taken modulo
its width. A read outside an array, or of a unit the storage map lacks, gives no result. -/
namespace Dewfall.RegionWalk
open General General.Descent Morton TreeArrays

variable {R : Type} [LinearOrder R]

structure Aabb (R : Type) where
  min : Fin 3 → R
  max : Fin 3 → R

def aabbOverlaps (a b : Aabb R) : Bool := decide (∀ i, ¬(a.max i < b.min i ∨ b.max i < a.min i))
def aabbContains (outer inner : Aabb R) : Bool := decide (∀ i, ¬(inner.min i < outer.min i ∨ outer.max i < inner.max i))

structure Arithmetic (R : Type) [LinearOrder R] where
  mid : R → R → R
  convertMortonToPos : TreeConfig → Code .m192 → Fin 3 → R
  between : ∀ a b, a ≤ b → a ≤ mid a b ∧ mid a b ≤ b

variable (arithmetic : Arithmetic R)

def aabbChild (parent : Aabb R) (childIndex : Nat) : Aabb R where
  min i := if childIndex.testBit i then arithmetic.mid (parent.min i) (parent.max i) else parent.min i
  max i := if childIndex.testBit i then parent.max i else arithmetic.mid (parent.min i) (parent.max i)

inductive LodMode where | full | level | pointBudget
  deriving DecidableEq, Repr

structure RegionQuery (R : Type) where
  box : Aabb R
  lodMode : LodMode
  lod : Int
  maxPoints : Nat
  wholeDataset : Bool

structure RegionNode (R : Type) where
  treeId : BitVec 32
  level : Fin 5
  index : BitVec 16
  lod : Nat
  inputId : InputDataId
  attributesId : BitVec 32
  offsetInSubset : BitVec 32
  pointCount : BitVec 32
  cell : Aabb R
  tight : Aabb R
  childMask : BitVec 8
  isLeaf : Bool
  isLod : Bool
  fullyInside : Bool

structure RegionResult (R : Type) where
  nodes : List (RegionNode R)
  treesToLoad : List (BitVec 32)
  totalPoints : Nat

structure PendingNode (R : Type) where
  tree : Tree
  skip : Int
  cell : Aabb R
  fullyInside : Bool

def cellFromMorton (config : TreeConfig) (min max : Code .m192) : Aabb R :=
  ⟨arithmetic.convertMortonToPos config min, arithmetic.convertMortonToPos config max⟩

variable (registry : TreeRegistry) (query : RegionQuery R)

def meets (cell : Aabb R) : Bool := query.wholeDataset || aabbOverlaps cell query.box

/-! ## emit_node -/

def emitSubset (level : Fin 5) (p : PendingNode R) (childMask : BitVec 8) (tight : Aabb R) (subset : PointsSubset) :
    Option (List (RegionNode R)) :=
  let leafData := inputDataIdIsLeaf subset.inputId
  if query.lodMode = .full ∧ leafData = false then some []
  else if query.lodMode ≠ .full ∧ childMask ≠ 0 ∧ leafData = true then some []
  else do
    let index ← at_ (p.tree.levels level).nodeIds p.skip
    let attributesId ← p.tree.storageMap.attributeId subset.inputId
    some [⟨p.tree.id, level, index, treeLevelToLod p.tree.magnitude level, subset.inputId, attributesId,
      subset.offset, subset.count, p.cell, tight, childMask, childMask == 0, !leafData,
      p.fullyInside || aabbContains query.box tight⟩]

-- The nodes that are appended.
def emitNode (level : Fin 5) (p : PendingNode R) : Option (List (RegionNode R)) := do
  let collection ← at_ (p.tree.levels level).data p.skip
  if collection.data = [] then some []
  else
    let tight := cellFromMorton arithmetic registry.treeConfig collection.min collection.max
    if meets query tight then
      let childMask ← at_ (p.tree.levels level).nodes p.skip
      let parts ← collection.data.mapM (emitSubset query level p childMask tight)
      some parts.flatten
    else some []

def pointsIn (nodes : List (RegionNode R)) : Nat := (nodes.map fun n => n.pointCount.toNat).sum

def emitted (out : RegionResult R) (nodes : List (RegionNode R)) : RegionResult R :=
  { out with nodes := out.nodes ++ nodes, totalPoints := out.totalPoints + pointsIn nodes }

/-! ## The descent -/

structure Visit (R : Type) where
  childCount : Nat
  next : List (PendingNode R)
  treesToLoad : List (BitVec 32)

def visitOctant (level : Fin 5) (p : PendingNode R) (bits : BitVec 8) (s : Visit R) (i : Nat) : Option (Visit R) :=
  if bits.getLsbD i = false then some s
  else
    let s' := { s with childCount := s.childCount + 1 }
    let childCell := aabbChild arithmetic p.cell i
    if meets query childCell = false then some s'
    else do
      let first ← at_ (p.tree.levels level).skips p.skip
      let childSkip := first.toInt + s.childCount
      let inside := p.fullyInside || aabbContains query.box childCell
      if level = 4 then
        let subTreeId ← at_ p.tree.subTrees childSkip
        if treeResident registry subTreeId then
          match ← registry.data[subTreeId.toNat]? with
          | none => some s'
          | some childTree => some { s' with next := s.next ++ [⟨childTree, 0, childCell, inside⟩] }
        else some { s' with treesToLoad := s.treesToLoad ++ [subTreeId] }
      else some { s' with next := s.next ++ [⟨p.tree, childSkip, childCell, inside⟩] }

def descends (total : Nat) (level : Fin 5) (tree : Tree) (children : BitVec 8) : Bool :=
  children ≠ 0 ∧ ¬(query.lodMode = .level ∧ (treeLevelToLod tree.magnitude level : Int) ≤ query.lod) ∧
    ¬(query.lodMode = .pointBudget ∧ query.maxPoints ≤ total)

def visitPending (level : Fin 5) (s : RegionResult R × List (PendingNode R)) (p : PendingNode R) :
    Option (RegionResult R × List (PendingNode R)) := do
  let children ← at_ (p.tree.levels level).nodes p.skip
  if descends query s.1.totalPoints level p.tree children then
    let v ← (List.range 8).foldlM (visitOctant arithmetic registry query level p children) ⟨0, s.2, s.1.treesToLoad⟩
    some ({ s.1 with treesToLoad := v.treesToLoad }, v.next)
  else
    let nodes ← emitNode arithmetic registry query level p
    some (emitted s.1 nodes, s.2)

def maxDepth : Nat := 40
def levelOf (depth : Nat) : Fin 5 := ⟨depth % 5, Nat.mod_lt _ (by decide)⟩

def walkLevels : Nat → Nat → RegionResult R → List (PendingNode R) → Option (RegionResult R)
  | 0, _, out, _ => some out
  | _ + 1, _, out, [] => some out
  | levels + 1, depth, out, current => do
    let s ← current.foldlM (visitPending arithmetic registry query (levelOf depth)) (out, [])
    walkLevels levels (depth + 1) s.1 s.2

def rootCell (root : Tree) : Aabb R :=
  cellFromMorton arithmetic registry.treeConfig root.mortonMin root.mortonMax

def rootNode (root : Tree) : PendingNode R :=
  let cell := rootCell arithmetic registry root
  ⟨root, 0, cell, query.wholeDataset || aabbContains query.box cell⟩

def walkRoot (root : Tree) : Option (RegionResult R) :=
  match (root.levels 0).data with
  | [] => some ⟨[], [], 0⟩
  | collection :: _ =>
    if collection.data = [] then some ⟨[], [], 0⟩
    else if meets query (rootCell arithmetic registry root) = false then some ⟨[], [], 0⟩
    else walkLevels arithmetic registry query maxDepth 0 ⟨[], [], 0⟩ [rootNode arithmetic registry query root]

def regionWalk : Option (RegionResult R) :=
  if registry.data.isEmpty then some ⟨[], [], 0⟩
  else if treeResident registry registry.root = false then some ⟨[], [registry.root], 0⟩
  else
    match registry.data[registry.root.toNat]? with
    | none => none
    | some none => some ⟨[], [], 0⟩
    | some (some root) => walkRoot arithmetic registry query root

end Dewfall.RegionWalk
