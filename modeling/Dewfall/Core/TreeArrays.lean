import Dewfall.Core.Morton
import Mathlib.Data.List.Nodup

/-! A tree as its five levels of parallel arrays, and the registry of trees, in the widths of the source.
The dense map of a tree is its list of entries. Doubles are kept as their bits; what is recomputed after
a load, and the shadow arrays of a debug build, are left out. -/
namespace Dewfall.TreeArrays
open Morton

structure InputDataId where
  data : BitVec 32
  sub : BitVec 32
  deriving DecidableEq, Repr

def inputDataIdIsLeaf (id : InputDataId) : Bool := !id.sub.getLsbD 31

structure StorageLocation where
  fileId : BitVec 32
  size : BitVec 32
  offset : BitVec 64
  deriving DecidableEq, Repr

structure PointsSubset where
  inputId : InputDataId
  offset : BitVec 32
  count : BitVec 32
  deriving DecidableEq, Repr

structure PointsCollection where
  pointCount : BitVec 64
  min : Code .m192
  max : Code .m192
  minLod : BitVec 32
  data : List PointsSubset

structure StorageValue where
  id : InputDataId
  attributesId : BitVec 32
  refCount : BitVec 32
  storage : List StorageLocation
  deriving DecidableEq, Repr

structure InputStorageMap where
  entries : List StorageValue
  distinct : (entries.map StorageValue.id).Nodup

namespace InputStorageMap

def find (m : InputStorageMap) (id : InputDataId) : Option StorageValue := m.entries.find? (·.id = id)
def attributeId (m : InputStorageMap) (id : InputDataId) : Option (BitVec 32) := (m.find id).map StorageValue.attributesId

end InputStorageMap

structure Level where
  nodes : List (BitVec 8)
  skips : List (BitVec 16)
  nodeIds : List (BitVec 16)
  data : List PointsCollection

structure Tree where
  mortonMin : Code .m192
  mortonMax : Code .m192
  levels : Fin 5 → Level
  subTrees : List (BitVec 32)
  id : BitVec 32
  magnitude : BitVec 8
  storageMap : InputStorageMap

structure TreeConfig where
  scale : BitVec 64
  offset : Fin 3 → BitVec 64
  storeOriginalOrder : Bool
  nodePointLimit : BitVec 32
  readChunkByteTarget : BitVec 64
  lodAllAttributes : BitVec 8
  lodAdaptiveSampling : BitVec 8
  mutableDataset : BitVec 8
  reserved : BitVec 40

structure ChunkRef where
  chunkId : InputDataId
  treeCount : BitVec 32
  pointCount : BitVec 32
  deriving DecidableEq, Repr

structure TreeRegistry where
  nodeLimit : BitVec 32
  currentId : BitVec 32
  root : BitVec 32
  treeConfig : TreeConfig
  currentLodNodeId : BitVec 64
  currentCollapsedNodeId : BitVec 64
  chunkTreeRefs : List ChunkRef
  lodWatermark : Code .m192
  data : List (Option Tree)
  locations : List StorageLocation
  treeIdInitialized : List Bool
  treeState : List (BitVec 8)
  treeBand : List (BitVec 32)
  inputRegistrySnapshot : List (BitVec 8)

-- `morton_tree_level_to_lod`
def treeLevelToLod (magnitude : BitVec 8) (level : Fin 5) : Nat := magnitude.toNat * 5 + 4 - level.val

def treeResident (registry : TreeRegistry) (id : BitVec 32) : Bool :=
  (registry.treeIdInitialized[id.toNat]?).getD false

/-! ## Octants -/

-- The bits of a mask below an octant; children are stored in the order of their bits.
def ordinal (mask : BitVec 8) (i : Nat) : Nat := (List.range i).countP mask.getLsbD

-- An array read at a signed index; a read outside the array has no value.
def at_ {α : Type} (array : List α) (i : Int) : Option α := if 0 ≤ i then array[i.toNat]? else none

theorem ordinalSucc (mask : BitVec 8) (i : Nat) :
    ordinal mask (i + 1) = ordinal mask i + (if mask.getLsbD i then 1 else 0) := by
  rw [ordinal, List.range_succ, List.countP_append, ordinal, List.countP_singleton]

theorem ordinalMono {mask : BitVec 8} {i j : Nat} (le : i ≤ j) : ordinal mask i ≤ ordinal mask j := by
  induction j, le using Nat.le_induction with
  | base => exact Nat.le_refl _
  | succ j _ ih =>
    rw [ordinalSucc]
    omega

-- Octants of one mask take different places.
theorem ordinalLt {mask : BitVec 8} {i j : Nat} (less : i < j) (set : mask.getLsbD i = true) :
    ordinal mask i < ordinal mask j := by
  have next : ordinal mask (i + 1) ≤ ordinal mask j := ordinalMono less
  rw [ordinalSucc, set, if_pos rfl] at next
  omega

end Dewfall.TreeArrays
