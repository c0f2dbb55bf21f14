import Dewfall.General.DenseMap
import Dewfall.General.Words

/-! The registry of input files: registration, pre-init results, chunk counts, dispatch order and
the done boundary. Codes are 192-bit morton codes in their order; the pre-init order of a file is
given. The 32-bit counters are plain numbers (`InputCounters` says when they are). Attributes, public
headers, storage locations and the session snapshot are left out. -/
namespace Dewfall.InputRegistry
open General

def maxCode : Nat := 2 ^ 192 - 1

-- The name's bytes, compared with `memcmp`.
abbrev Name := List UInt8

structure Item where
  name : Name
  mortonMin : Nat
  mortonMax : Nat
  inputOrder : Nat
  readStarted : Bool
  readFinished : Bool
  preInitSettled : Bool
  insertedIntoTree : Nat
  subCount : Nat
  approximatePointCount : Nat
  approximatePointSizeBytes : Nat
  deriving DecidableEq, Repr

structure Registry where
  items : DenseMap Nat Item
  nextInputId : Nat
  inputDataWithSubParts : Nat
  inputDataInsertedToTree : Nat
  inputDataIdDoneCount : Nat
  unsortedInputSources : List Nat
  sortedInputSources : List Nat
  unsortedInputSourcesDirty : Bool
  donePrefixIndex : Nat

def empty : Registry := ⟨DenseMap.empty, 0, 0, 0, 0, [], [], true, 0⟩

def freshItem (name : Name) : Item := ⟨name, maxCode, 0, 0, false, false, false, 0, 0, 0, 0⟩

-- Read to the end, with every chunk counted so far in the tree.
def Item.done (item : Item) : Bool := item.readFinished && item.subCount ≤ item.insertedIntoTree

def modifyItem (items : DenseMap Nat Item) (id : Nat) (f : Item → Item) : DenseMap Nat Item :=
  match items.find id with
  | none => items
  | some item => items.assign id (f item)

def registerFile (layout : Layout Nat Item) (r : Registry) (name : Name) : Registry × Nat × Bool :=
  match r.items.entries.find? fun e => e.2.name = name with
  | some (id, item) => (r, id, item.readFinished && item.insertedIntoTree = item.subCount)
  | none =>
    ({ r with
        items := r.items.emplace layout r.nextInputId (freshItem name)
        nextInputId := r.nextInputId + 1 }, r.nextInputId, false)

-- `order` is the code of the file's minimum corner when the pre-init found one.
def registerPreInitResult (r : Registry) (id : Nat) (order : Option Nat)
    (pointCount pointSizeBytes : Nat) : Registry :=
  { r with
    items := modifyItem r.items id fun item => { item with
      approximatePointCount := pointCount
      approximatePointSizeBytes := pointSizeBytes
      inputOrder := order.getD 0
      preInitSettled := true }
    unsortedInputSourcesDirty := true }

def handleSubAdded (r : Registry) (id : Nat) : Registry :=
  { r with
    items := modifyItem r.items id fun item => { item with subCount := item.subCount + 1 }
    inputDataWithSubParts := r.inputDataWithSubParts + 1 }

def handleSortedPoints (r : Registry) (id min max : Nat) : Registry :=
  { r with items := modifyItem r.items id fun item => { item with
      mortonMin := if min < item.mortonMin then min else item.mortonMin
      mortonMax := if item.mortonMax < max then max else item.mortonMax } }

def finishRead (r : Registry) (id : Nat) : Registry :=
  match r.items.find id with
  | none => r
  | some item =>
    if item.readFinished then r
    else { r with
      items := r.items.assign id { item with readFinished := true }
      inputDataIdDoneCount := r.inputDataIdDoneCount + 1 }

def handleReadingDone (r : Registry) (id : Nat) : Registry := finishRead r id

def handleFileFailed (r : Registry) (id : Nat) : Registry :=
  finishRead { r with
    items := modifyItem r.items id fun item => { item with preInitSettled := true, readStarted := true }
    unsortedInputSourcesDirty := true } id

def handleTreeDoneWithInput (r : Registry) (id : Nat) : Registry :=
  { r with
    items := modifyItem r.items id fun item => { item with insertedIntoTree := item.insertedIntoTree + 1 }
    inputDataInsertedToTree := r.inputDataInsertedToTree + 1 }

def allInsertedIntoTree (r : Registry) : Bool :=
  r.items.entries.length = r.inputDataIdDoneCount &&
    r.inputDataWithSubParts = r.inputDataInsertedToTree

/-! ## next_input_to_process -/

def orderOf (items : DenseMap Nat Item) (id : Nat) : Nat :=
  ((items.find id).map Item.inputOrder).getD 0

def rebuildUnsorted (r : Registry) : Registry :=
  if r.unsortedInputSourcesDirty then { r with
    unsortedInputSourcesDirty := false
    unsortedInputSources := (r.items.entries.filter fun e =>
      !e.2.readStarted && e.2.preInitSettled).map Prod.fst }
  else r

-- What `pop_heap` may return: any of the waiting files of least order.
def Next (r : Registry) (id : Nat) : Prop :=
  id ∈ (rebuildUnsorted r).unsortedInputSources ∧
    ∀ other ∈ (rebuildUnsorted r).unsortedInputSources,
      orderOf r.items id ≤ orderOf r.items other

instance (r id) : Decidable (Next r id) := by unfold Next; infer_instance

def nextInputToProcess (r : Registry) (id : Nat) : Registry :=
  let r := rebuildUnsorted r
  { r with
    unsortedInputSources := r.unsortedInputSources.erase id
    sortedInputSources := r.sortedInputSources ++ [id]
    items := modifyItem r.items id fun item => { item with readStarted := true } }

def getApproximateSize (r : Registry) (id : Nat) : Nat :=
  ((r.items.find id).map fun item =>
    u64 (item.approximatePointCount * item.approximatePointSizeBytes)).getD 0

/-! ## get_done_morton -/

def doneId (items : DenseMap Nat Item) (id : Nat) : Bool := ((items.find id).map Item.done).getD false

def advancePrefix (items : DenseMap Nat Item) (sorted : List Nat) (index : Nat) : Nat :=
  index + ((sorted.drop index).takeWhile (doneId items)).length

def clampUndispatched (entries : List (Nat × Item)) (boundary : Nat) : Nat :=
  entries.foldl (fun b e => if !e.2.readStarted && e.2.inputOrder < b then e.2.inputOrder else b)
    boundary

def firstUnfinished (items : DenseMap Nat Item) (sorted : List Nat) (index : Nat) : Nat :=
  match sorted[index]?.bind items.find with
  | none => maxCode
  | some next => if next.mortonMin < next.inputOrder then next.mortonMin else next.inputOrder

def getDoneMorton (r : Registry) : Registry × Option Nat :=
  if r.sortedInputSources = [] then (r, none)
  else
    let index := advancePrefix r.items r.sortedInputSources r.donePrefixIndex
    let advanced := { r with donePrefixIndex := index }
    if index = 0 then (advanced, none)
    else
      let boundary := clampUndispatched r.items.entries
        (firstUnfinished r.items r.sortedInputSources index)
      if 0 < boundary then (advanced, some boundary) else (advanced, none)

end Dewfall.InputRegistry
