import Dewfall.Core.TreeArrays
import Dewfall.General.Codec
import Mathlib.Algebra.Order.BigOperators.Group.List

/-! A tree written to bytes and read back. A blob has the size computed before it is written, which
counts four bytes more for every empty level. Recomputed fields and the map's own hashing are left
out. -/
namespace Dewfall.TreeSerialize
open General.Codec Morton TreeArrays

structure Error where
  code : Nat
  msg : String
  deriving DecidableEq, Repr

def invalidTree : Error := ⟨1, "Invalid tree data"⟩

/-! ## Images -/

def u8 : Image (BitVec 8) := Image.word 1
def u16 : Image (BitVec 16) := Image.word 2
def u32 : Image (BitVec 32) := Image.word 4
def u64 : Image (BitVec 64) := Image.word 8

def morton192 : Image (Code .m192) := Image.record (Image.triple u64) (fun data => ⟨data⟩) Code.data fun _ => rfl

def inputDataId : Image InputDataId := (u32.pair u32).record (fun v => ⟨v.1, v.2⟩) (fun id => (id.data, id.sub)) fun _ => rfl

def storageLocation : Image StorageLocation :=
  ((u32.pair u32).pair u64).record (fun v => ⟨v.1.1, v.1.2, v.2⟩) (fun l => ((l.fileId, l.size), l.offset)) fun _ => rfl

def pointsSubset : Image PointsSubset :=
  ((inputDataId.pair u32).pair u32).record (fun v => ⟨v.1.1, v.1.2, v.2⟩) (fun s => ((s.inputId, s.offset), s.count))
    fun _ => rfl

-- `uint32_t(values.size())`
def count {α : Type} (values : List α) : BitVec 32 := BitVec.ofNat 32 values.length

/-! ## Writing -/

def writeCollection (points : PointsCollection) : Bytes :=
  u64.encode points.pointCount ++ (morton192.encode points.min ++ (morton192.encode points.max ++
    (u32.encode points.minLod ++ (u32.encode (count points.data) ++ pointsSubset.block points.data))))

def writeCollections (data : List PointsCollection) : Bytes := u32.encode (count data) ++ data.flatMap writeCollection

def writeLevel (level : Level) : Bytes :=
  u32.encode (count level.nodes) ++
    if count level.nodes = 0 then []
    else u8.block level.nodes ++ (u16.block level.skips ++ (u16.block level.nodeIds ++ writeCollections level.data))

def writeStorageValue (value : StorageValue) : Bytes :=
  inputDataId.encode value.id ++ (u32.encode value.attributesId ++ (u32.encode value.refCount ++
    (u32.encode (count value.storage) ++ storageLocation.block value.storage)))

def writeStorageMap (m : InputStorageMap) : Bytes := u32.encode (count m.entries) ++ m.entries.flatMap writeStorageValue

def levelsOf (tree : Tree) : List Level := List.ofFn tree.levels

def writeTree (tree : Tree) : Bytes :=
  morton192.encode tree.mortonMin ++ (morton192.encode tree.mortonMax ++ (u32.encode tree.id ++
    (u8.encode tree.magnitude ++ ((levelsOf tree).flatMap writeLevel ++
      (u32.encode (count tree.subTrees) ++ (u32.block tree.subTrees ++ writeStorageMap tree.storageMap))))))

/-! ## The size computed before -/

def pointsCollectionSerializeSize (points : PointsCollection) : Nat :=
  u64.size + morton192.size + morton192.size + u32.size + u32.size + pointsSubset.size * points.data.length

def pointsCollectionsSerializeSize (data : List PointsCollection) : Nat :=
  (u32.size + (data.map pointsCollectionSerializeSize).sum) % 2 ^ 32

def levelSerializeSize (level : Level) : Nat :=
  u32.size + (count level.nodes).toNat * u8.size + (count level.nodes).toNat * u16.size +
    (count level.nodes).toNat * u16.size + pointsCollectionsSerializeSize level.data

def storageMapSerializedSize (m : InputStorageMap) : Nat :=
  (u32.size + (m.entries.map fun value =>
    inputDataId.size + u32.size + u32.size + u32.size + storageLocation.size * value.storage.length).sum) % 2 ^ 32

def treeSize (tree : Tree) : Nat :=
  morton192.size + morton192.size + u32.size + u8.size + ((levelsOf tree).map levelSerializeSize).sum +
    u32.size + tree.subTrees.length * u32.size + storageMapSerializedSize tree.storageMap

-- The size is an `int`; data no longer than it can be read.
structure SerializedTree where
  data : Bytes
  size : Int
  deriving DecidableEq, Repr

def toInt (size : Nat) : Int := (BitVec.ofNat 32 size).toInt

-- Each write checks the end of the buffer, so one fails exactly when the whole is too long for it.
def treeSerialize (tree : Tree) : Option SerializedTree :=
  let written := writeTree tree
  if treeSize tree < written.length then none
  else some ⟨written ++ List.replicate (treeSize tree - written.length) 0, toInt (treeSize tree)⟩

/-! ## Reading -/

def readCollection : Reader Error PointsCollection := do
  let pointCount ← readMemory invalidTree u64
  let min ← readMemory invalidTree morton192
  let max ← readMemory invalidTree morton192
  let minLod ← readMemory invalidTree u32
  let dataSize ← readMemory invalidTree u32
  let data ← readVector invalidTree pointsSubset dataSize.toNat
  pure ⟨pointCount, min, max, minLod, data⟩

def readCollections : Reader Error (List PointsCollection) := do
  let size ← readMemory invalidTree u32
  times readCollection size.toNat

def readLevel : Reader Error Level := do
  let levelSize ← readMemory invalidTree u32
  if levelSize = 0 then pure ⟨[], [], [], []⟩
  else do
    let nodes ← readVector invalidTree u8 levelSize.toNat
    let skips ← readVector invalidTree u16 levelSize.toNat
    let nodeIds ← readVector invalidTree u16 levelSize.toNat
    let data ← readCollections
    pure ⟨nodes, skips, nodeIds, data⟩

def readStorageValue : Reader Error StorageValue := do
  let id ← readMemory invalidTree inputDataId
  let attributesId ← readMemory invalidTree u32
  let refCount ← readMemory invalidTree u32
  let storageSize ← readMemory invalidTree u32
  let storage ← readVector invalidTree storageLocation storageSize.toNat
  pure ⟨id, attributesId, refCount, storage⟩

-- `_map[id] = value`
def assign (entries : List StorageValue) (value : StorageValue) : List StorageValue :=
  if value.id ∈ entries.map StorageValue.id then entries.map fun e => if e.id = value.id then value else e
  else entries ++ [value]

theorem assignDistinct {entries : List StorageValue} (distinct : (entries.map StorageValue.id).Nodup)
    (value : StorageValue) : ((assign entries value).map StorageValue.id).Nodup := by
  unfold assign
  split
  · have ids : (entries.map fun e => if e.id = value.id then value else e).map StorageValue.id =
        entries.map StorageValue.id := by
      rw [List.map_map]
      refine List.map_congr_left fun e _ => ?_
      by_cases same : e.id = value.id
      · simp [same]
      · simp [same]
    rwa [ids]
  · rename_i fresh
    rw [List.map_append, List.map_singleton]
    exact List.Nodup.append distinct (List.nodup_singleton _) (by simpa using fresh)

def assignAll (m : InputStorageMap) (values : List StorageValue) : InputStorageMap :=
  values.foldl (fun m value => ⟨assign m.entries value, assignDistinct m.distinct value⟩) m

def emptyMap : InputStorageMap := ⟨[], List.nodup_nil⟩

def readStorageMap : Reader Error InputStorageMap := do
  let mapSize ← readMemory invalidTree u32
  let values ← times readStorageValue mapSize.toNat
  pure (assignAll emptyMap values)

def readTree : Reader Error Tree := do
  let mortonMin ← readMemory invalidTree morton192
  let mortonMax ← readMemory invalidTree morton192
  let id ← readMemory invalidTree u32
  let magnitude ← readMemory invalidTree u8
  let levels ← times readLevel 5
  let subTreesSize ← readMemory invalidTree u32
  let subTrees ← readVector invalidTree u32 subTreesSize.toNat
  let storageMap ← readStorageMap
  pure ⟨mortonMin, mortonMax, fun i => levels.getD i ⟨[], [], [], []⟩, subTrees, id, magnitude, storageMap⟩

def treeDeserialize (serialized : SerializedTree) : Except Error Tree :=
  (readTree (serialized.data.take serialized.size.toNat)).map Prod.fst

/-! ## Reading back -/

theorem countBack {α : Type} {values : List α} (small : values.length < 2 ^ 32) :
    (count values).toNat = values.length := by
  rw [count, BitVec.toNat_ofNat, Nat.mod_eq_of_lt small]

theorem readsSized {α : Type} {error : Error} (image : Image α) {values : List α} (small : values.length < 2 ^ 32) :
    Reads error (readVector error image (count values).toNat) (image.block values) values := by
  rw [countBack small]
  exact readsVector image values

theorem readsCollection {points : PointsCollection} (small : points.data.length < 2 ^ 32) :
    Reads invalidTree readCollection (writeCollection points) points := by
  refine readsBind (readsMemory u64 _) (readsBind (readsMemory morton192 _) (readsBind (readsMemory morton192 _) ?_))
  exact readsBind (readsMemory u32 _) (readsBind (readsMemory u32 _) (readsMap (readsSized pointsSubset small) _))

theorem readsCollections {data : List PointsCollection} (small : data.length < 2 ^ 32)
    (each : ∀ points ∈ data, points.data.length < 2 ^ 32) :
    Reads invalidTree readCollections (writeCollections data) data := by
  refine readsBind (readsMemory u32 _) ?_
  rw [countBack small]
  exact readsTimes fun points here => readsCollection (each points here)

-- The arrays of a level are asserted to have one length.
def Parallel (level : Level) : Prop :=
  level.skips.length = level.nodes.length ∧ level.nodeIds.length = level.nodes.length ∧
    level.data.length = level.nodes.length

def LevelCounted (level : Level) : Prop :=
  level.nodes.length < 2 ^ 32 ∧ ∀ points ∈ level.data, points.data.length < 2 ^ 32

theorem countZero {α : Type} {values : List α} (small : values.length < 2 ^ 32) : count values = 0 ↔ values = [] := by
  rw [← BitVec.toNat_inj, countBack small]
  simp

theorem readsLevel {level : Level} (parallel : Parallel level) (counted : LevelCounted level) :
    Reads invalidTree readLevel (writeLevel level) level := by
  obtain ⟨skips, nodeIds, data⟩ := parallel
  obtain ⟨small, each⟩ := counted
  refine readsBind (readsMemory u32 _) ?_
  by_cases none_ : level.nodes = []
  · have empty : level = ⟨[], [], [], []⟩ := by
      cases level
      simp_all
    rw [if_pos ((countZero small).mpr none_), if_pos ((countZero small).mpr none_)]
    rw [empty]
    exact readsPure _
  · have some_ : count level.nodes ≠ 0 := fun zero => none_ ((countZero small).mp zero)
    have skipped : count level.nodes = count level.skips := by simp [count, skips]
    have named : count level.nodes = count level.nodeIds := by simp [count, nodeIds]
    rw [if_neg some_, if_neg some_]
    refine readsBind (readsSized u8 small) (readsBind ?_ (readsBind ?_ (readsMap (readsCollections ?_ each) _)))
    · rw [skipped]
      exact readsSized u16 (by omega)
    · rw [named]
      exact readsSized u16 (by omega)
    · omega

theorem readsStorageValue {value : StorageValue} (small : value.storage.length < 2 ^ 32) :
    Reads invalidTree readStorageValue (writeStorageValue value) value := by
  refine readsBind (readsMemory inputDataId _) (readsBind (readsMemory u32 _) (readsBind (readsMemory u32 _) ?_))
  exact readsBind (readsMemory u32 _) (readsMap (readsSized storageLocation small) _)

theorem assignAllEntries (m : InputStorageMap) (values : List StorageValue)
    (distinct : ((m.entries ++ values).map StorageValue.id).Nodup) :
    (assignAll m values).entries = m.entries ++ values := by
  induction values generalizing m with
  | nil => exact (List.append_nil _).symm
  | cons value values ih =>
    have fresh : value.id ∉ m.entries.map StorageValue.id := by
      rw [List.map_append, List.map_cons, List.nodup_append'] at distinct
      exact fun here => distinct.2.2 here List.mem_cons_self
    have added : assign m.entries value = m.entries ++ [value] := if_neg fresh
    have next := ih ⟨assign m.entries value, assignDistinct m.distinct value⟩ (by simpa [added] using distinct)
    exact next.trans (by simp [added])

theorem assignAllBack (m : InputStorageMap) : assignAll emptyMap m.entries = m := by
  have entries := assignAllEntries emptyMap m.entries (by simpa [emptyMap] using m.distinct)
  have same : ∀ a b : InputStorageMap, a.entries = b.entries → a = b := by
    rintro ⟨_, _⟩ ⟨_, _⟩ rfl
    rfl
  exact same _ _ (by simpa [emptyMap] using entries)

theorem readsStorageMap {m : InputStorageMap} (small : m.entries.length < 2 ^ 32)
    (each : ∀ value ∈ m.entries, value.storage.length < 2 ^ 32) :
    Reads invalidTree readStorageMap (writeStorageMap m) m := by
  have values : Reads invalidTree (times readStorageValue (count m.entries).toNat)
      (m.entries.flatMap writeStorageValue) m.entries := by
    rw [countBack small]
    exact readsTimes fun value here => readsStorageValue (each value here)
  have whole : Reads invalidTree readStorageMap (writeStorageMap m) (assignAll emptyMap m.entries) :=
    readsBind (readsMemory u32 _) (readsMap values _)
  rwa [assignAllBack] at whole

structure Counted (tree : Tree) : Prop where
  levels : ∀ i, LevelCounted (tree.levels i)
  subTrees : tree.subTrees.length < 2 ^ 32
  entries : tree.storageMap.entries.length < 2 ^ 32
  storage : ∀ value ∈ tree.storageMap.entries, value.storage.length < 2 ^ 32

theorem readsTree {tree : Tree} (parallel : ∀ i, Parallel (tree.levels i)) (counted : Counted tree) :
    Reads invalidTree readTree (writeTree tree) tree := by
  have levels : Reads invalidTree (times readLevel 5) ((levelsOf tree).flatMap writeLevel) (levelsOf tree) := by
    have five : (levelsOf tree).length = 5 := List.length_ofFn
    rw [← five]
    refine readsTimes fun level here => ?_
    obtain ⟨i, rfl⟩ := List.mem_ofFn.mp here
    exact readsLevel (parallel i) (counted.levels i)
  have same : tree = ⟨tree.mortonMin, tree.mortonMax, fun i => (levelsOf tree).getD i ⟨[], [], [], []⟩, tree.subTrees,
      tree.id, tree.magnitude, tree.storageMap⟩ := by
    have each : (fun i : Fin 5 => (levelsOf tree).getD i ⟨[], [], [], []⟩) = tree.levels := by
      funext i
      match i with
      | 0 | 1 | 2 | 3 | 4 => rfl
    rw [each]
  refine readsBind (readsMemory morton192 _) (readsBind (readsMemory morton192 _) (readsBind (readsMemory u32 _) ?_))
  refine readsBind (readsMemory u8 _) (readsBind levels (readsBind (readsMemory u32 _) ?_))
  have rest := readsMap (readsStorageMap counted.entries counted.storage) fun storageMap =>
    (⟨tree.mortonMin, tree.mortonMax, fun i => (levelsOf tree).getD i ⟨[], [], [], []⟩, tree.subTrees, tree.id,
      tree.magnitude, storageMap⟩ : Tree)
  rw [← same] at rest
  exact readsBind (readsSized u32 counted.subTrees) rest

/-! ## The size of a blob -/

def collectionsBytes (data : List PointsCollection) : Nat := u32.size + (data.map pointsCollectionSerializeSize).sum

def levelBytes (level : Level) : Nat :=
  u32.size + level.nodes.length * u8.size + level.nodes.length * u16.size + level.nodes.length * u16.size +
    collectionsBytes level.data

def storageValueBytes (value : StorageValue) : Nat :=
  inputDataId.size + u32.size + u32.size + u32.size + storageLocation.size * value.storage.length

def storageMapBytes (m : InputStorageMap) : Nat := u32.size + (m.entries.map storageValueBytes).sum

-- The size with no counter wrapped.
def treeBytes (tree : Tree) : Nat :=
  morton192.size + morton192.size + u32.size + u8.size + ((levelsOf tree).map levelBytes).sum + u32.size +
    tree.subTrees.length * u32.size + storageMapBytes tree.storageMap

def Fits (tree : Tree) : Prop := treeBytes tree < 2 ^ 31

instance (tree) : Decidable (Fits tree) := by unfold Fits; infer_instance

def emptyLevels (tree : Tree) : Nat := (levelsOf tree).countP (·.nodes.isEmpty)

@[simp] theorem u8Size : u8.size = 1 := rfl
@[simp] theorem u16Size : u16.size = 2 := rfl
@[simp] theorem u32Size : u32.size = 4 := rfl
@[simp] theorem u64Size : u64.size = 8 := rfl
@[simp] theorem morton192Size : morton192.size = 24 := rfl
@[simp] theorem inputDataIdSize : inputDataId.size = 8 := rfl
@[simp] theorem storageLocationSize : storageLocation.size = 16 := rfl
@[simp] theorem pointsSubsetSize : pointsSubset.size = 16 := rfl

theorem sumAtLeast {α : Type} {values : List α} {a : α} (f : α → Nat) (here : a ∈ values) : f a ≤ (values.map f).sum :=
  List.le_sum_of_mem (List.mem_map_of_mem here)

theorem countAtMost {α : Type} {values : List α} {f : α → Nat} (positive : ∀ a ∈ values, 1 ≤ f a) :
    values.length ≤ (values.map f).sum := by
  induction values with
  | nil => exact Nat.le_refl _
  | cons a values ih =>
    have first := positive a List.mem_cons_self
    have rest := ih fun b here => positive b (List.mem_cons_of_mem a here)
    simp only [List.length_cons, List.map_cons, List.sum_cons]
    omega

theorem flatMapBytes {α : Type} {write : α → Bytes} {size : α → Nat} {values : List α}
    (each : ∀ a ∈ values, (write a).length = size a) : (values.flatMap write).length = (values.map size).sum := by
  rw [List.length_flatMap]
  exact congrArg List.sum (List.map_congr_left each)

section
variable {tree : Tree} (fits : Fits tree)
include fits

theorem levelFits (i : Fin 5) : levelBytes (tree.levels i) < 2 ^ 31 := by
  have here : tree.levels i ∈ levelsOf tree := List.mem_ofFn.mpr ⟨i, rfl⟩
  have one := sumAtLeast levelBytes here
  unfold Fits treeBytes at fits
  omega

theorem fitsCounted : Counted tree := by
  have whole : treeBytes tree < 2 ^ 31 := fits
  unfold treeBytes storageMapBytes at whole
  simp only [u32Size] at whole
  refine ⟨fun i => ?_, by omega, ?_, fun value here => ?_⟩
  · have level := levelFits fits i
    unfold levelBytes collectionsBytes at level
    simp only [u8Size, u16Size] at level
    refine ⟨by omega, fun points here => ?_⟩
    have one := sumAtLeast pointsCollectionSerializeSize here
    unfold pointsCollectionSerializeSize at one level
    simp only [pointsSubsetSize] at one level
    omega
  · have counted : tree.storageMap.entries.length ≤ (tree.storageMap.entries.map storageValueBytes).sum :=
      countAtMost fun value _ => by simp [storageValueBytes]; omega
    omega
  · have one := sumAtLeast storageValueBytes here
    have value : 16 * value.storage.length ≤ storageValueBytes value := by simp [storageValueBytes]
    omega

end

theorem collectionLength (points : PointsCollection) :
    (writeCollection points).length = pointsCollectionSerializeSize points := by
  simp [writeCollection, pointsCollectionSerializeSize]
  omega

theorem collectionsLength (data : List PointsCollection) : (writeCollections data).length = collectionsBytes data := by
  simp [writeCollections, collectionsBytes, flatMapBytes fun points _ => collectionLength points]

theorem storageMapLength (m : InputStorageMap) : (writeStorageMap m).length = storageMapBytes m := by
  have each : ∀ value ∈ m.entries, (writeStorageValue value).length = storageValueBytes value := by
    intro value _
    simp [writeStorageValue, storageValueBytes]
    omega
  simp [writeStorageMap, storageMapBytes, flatMapBytes each]

theorem levelLength {level : Level} (parallel : Parallel level) (small : level.nodes.length < 2 ^ 32) :
    (writeLevel level).length + (if level.nodes.isEmpty then 4 else 0) = levelBytes level := by
  obtain ⟨skips, nodeIds, data⟩ := parallel
  rw [writeLevel, levelBytes]
  by_cases none_ : level.nodes = []
  · have empty : level.data = [] := List.eq_nil_of_length_eq_zero (by rw [data, none_]; rfl)
    rw [if_pos ((countZero small).mpr none_)]
    simp [none_, empty, collectionsBytes]
  · rw [if_neg fun zero => none_ ((countZero small).mp zero)]
    simp [none_, collectionsLength, skips, nodeIds]
    omega

theorem levelSize {level : Level} (small : levelBytes level < 2 ^ 31) : levelSerializeSize level = levelBytes level := by
  unfold levelBytes at small
  simp only [u8Size, u16Size] at small
  have counted : (count level.nodes).toNat = level.nodes.length := countBack (by omega)
  have collections : pointsCollectionsSerializeSize level.data = collectionsBytes level.data :=
    Nat.mod_eq_of_lt (show collectionsBytes level.data < 2 ^ 32 by omega)
  rw [levelSerializeSize, levelBytes, counted, collections]

theorem writtenLength {tree : Tree} (parallel : ∀ i, Parallel (tree.levels i)) (counted : Counted tree) :
    (writeTree tree).length + 4 * emptyLevels tree = treeBytes tree := by
  have levels : ((levelsOf tree).map fun level => (writeLevel level).length).sum + 4 * emptyLevels tree =
      ((levelsOf tree).map levelBytes).sum := by
    have each : ∀ level ∈ levelsOf tree,
        (writeLevel level).length + (if level.nodes.isEmpty then 4 else 0) = levelBytes level := by
      intro level here
      obtain ⟨i, rfl⟩ := List.mem_ofFn.mp here
      exact levelLength (parallel i) (counted.levels i).1
    unfold emptyLevels
    generalize levelsOf tree = all at each
    induction all with
    | nil => rfl
    | cons level rest ih =>
      have first := each level List.mem_cons_self
      have later := ih fun other here => each other (List.mem_cons_of_mem level here)
      simp only [List.map_cons, List.sum_cons, List.countP_cons]
      cases none_ : level.nodes.isEmpty <;> simp only [none_, if_true, Bool.false_eq_true, if_false] at first ⊢ <;> omega
  simp [writeTree, treeBytes, List.length_flatMap, storageMapLength]
  omega

theorem treeSizeOf {tree : Tree} (fits : Fits tree) : treeSize tree = treeBytes tree := by
  have levels : (levelsOf tree).map levelSerializeSize = (levelsOf tree).map levelBytes := by
    refine List.map_congr_left fun level here => ?_
    obtain ⟨i, rfl⟩ := List.mem_ofFn.mp here
    exact levelSize (levelFits fits i)
  have storage : storageMapSerializedSize tree.storageMap = storageMapBytes tree.storageMap := by
    refine Nat.mod_eq_of_lt (lt_of_le_of_lt ?_ (show 2 ^ 31 < 2 ^ 32 by decide))
    have whole : treeBytes tree < 2 ^ 31 := fits
    unfold treeBytes storageMapBytes storageValueBytes at whole
    omega
  rw [treeSize, treeBytes, levels, storage]

theorem toIntSmall {size : Nat} (small : size < 2 ^ 31) : toInt size = size := by
  rw [toInt, BitVec.toInt_eq_toNat_of_lt]
  · rw [BitVec.toNat_ofNat, Nat.mod_eq_of_lt (by omega)]
  · rw [BitVec.toNat_ofNat, Nat.mod_eq_of_lt (by omega)]
    omega

-- What a tree of this size is written to: its bytes, and four zeroes for each empty level.
theorem treeSerialized {tree : Tree} (parallel : ∀ i, Parallel (tree.levels i)) (fits : Fits tree) :
    treeSerialize tree = some ⟨writeTree tree ++ List.replicate (4 * emptyLevels tree) 0, treeBytes tree⟩ := by
  have written := writtenLength parallel (fitsCounted fits)
  have rest : treeBytes tree - (writeTree tree).length = 4 * emptyLevels tree := by omega
  rw [treeSerialize, treeSizeOf fits, if_neg (by omega), rest, toIntSmall fits]

def cutAt (serialized : SerializedTree) (n : Nat) : SerializedTree := ⟨serialized.data.take n, n⟩

theorem treeDeserialized {tree : Tree} (parallel : ∀ i, Parallel (tree.levels i)) (fits : Fits tree) (rest : Bytes) :
    treeDeserialize ⟨writeTree tree ++ rest, ((writeTree tree ++ rest).length : Nat)⟩ = .ok tree := by
  rw [treeDeserialize, Int.toNat_natCast, List.take_length, (readsTree parallel (fitsCounted fits)).1]
  rfl

theorem treeCut {tree : Tree} (parallel : ∀ i, Parallel (tree.levels i)) (fits : Fits tree) {n : Nat}
    (short : n < (writeTree tree).length) (rest : Bytes) (size : Int) :
    treeDeserialize (cutAt ⟨writeTree tree ++ rest, size⟩ n) = .error invalidTree := by
  have bytes : ((writeTree tree ++ rest).take n).take n = (writeTree tree).take n := by
    rw [List.take_take, Nat.min_self, List.take_append_of_le_length short.le]
  rw [treeDeserialize, cutAt, Int.toNat_natCast, bytes, (readsTree parallel (fitsCounted fits)).2 n short]
  rfl

end Dewfall.TreeSerialize
