import Dewfall.Core.TreeSerialize

/-! The registry blob in its four versions. The writer knows the newest only; the older layouts are
those the reader is documented to accept. Padding bytes are whatever the memory held. Trees in
memory are not part of a blob. -/
namespace Dewfall.RegistrySerialize
open General.Codec Morton TreeArrays TreeSerialize

def invalidRegistry : Error := ⟨1, "Invalid tree registry data"⟩

def newerRegistry : Error :=
  ⟨1, "Tree registry was written by a newer version of dewfall (unknown 'TRG' format); upgrade to read it"⟩

def magicV2 : BitVec 32 := 0x32475254#32
def magicV3 : BitVec 32 := 0x33475254#32
def magicV4 : BitVec 32 := 0x34475254#32

def treeBandNone : BitVec 32 := 0xFFFFFFFF#32
def building : BitVec 8 := 0#8

structure TreeConfigV2 where
  scale : BitVec 64
  offset : Fin 3 → BitVec 64
  storeOriginalOrder : Bool
  nodePointLimit : BitVec 32

structure TreeConfigV3 extends TreeConfigV2 where
  readChunkByteTarget : BitVec 64

/-! ## Images -/

def flag : Image Bool := u8.record (fun byte => decide (byte ≠ 0)) (fun b => if b then 1 else 0) (by decide)

-- A padded record is the pair of its value and its padding.
abbrev Padding := BitVec 24

def treeConfigV2 : Image (TreeConfigV2 × Padding) :=
  (((u64.pair (Image.triple u64)).pair (flag.pair (Image.word 3))).pair u32).record
    (fun v => (⟨v.1.1.1, v.1.1.2, v.1.2.1, v.2⟩, v.1.2.2))
    (fun c => (((c.1.scale, c.1.offset), (c.1.storeOriginalOrder, c.2)), c.1.nodePointLimit)) fun _ => rfl

def treeConfigV3 : Image (TreeConfigV3 × Padding) :=
  (treeConfigV2.pair u64).record (fun v => (⟨v.1.1, v.2⟩, v.1.2))
    (fun c => ((c.1.toTreeConfigV2, c.2), c.1.readChunkByteTarget)) fun _ => rfl

def treeConfig : Image (TreeConfig × Padding) :=
  ((treeConfigV3.pair u8).pair ((u8.pair u8).pair (Image.word 5))).record
    (fun v => let old := v.1.1.1
      (⟨old.scale, old.offset, old.storeOriginalOrder, old.nodePointLimit, old.readChunkByteTarget, v.1.2, v.2.1.1, v.2.1.2,
        v.2.2⟩, v.1.1.2))
    (fun c => (((⟨⟨c.1.scale, c.1.offset, c.1.storeOriginalOrder, c.1.nodePointLimit⟩, c.1.readChunkByteTarget⟩, c.2),
      c.1.lodAllAttributes), ((c.1.lodAdaptiveSampling, c.1.mutableDataset), c.1.reserved))) fun _ => rfl

example : treeConfigV2.size = 40 ∧ treeConfigV3.size = 48 ∧ treeConfig.size = 56 := by decide

def chunkRef : Image ChunkRef :=
  ((inputDataId.pair u32).pair u32).record (fun v => ⟨v.1.1, v.1.2, v.2⟩)
    (fun r => ((r.chunkId, r.treeCount), r.pointCount)) fun _ => rfl

/-! ## Writing -/

inductive Version where
  | v1 | v2 | v3 | v4
  deriving DecidableEq, Repr

section
variable (padding : Padding) (registry : TreeRegistry)

def oldConfig (config : TreeConfig) : TreeConfigV3 :=
  ⟨⟨config.scale, config.offset, config.storeOriginalOrder, config.nodePointLimit⟩, config.readChunkByteTarget⟩

def writeHead : Version → Bytes
  | .v1 => u32.encode registry.nodeLimit
  | .v2 => u32.encode magicV2 ++ u32.encode registry.nodeLimit
  | .v3 => u32.encode magicV3 ++ u32.encode registry.nodeLimit
  | .v4 => u32.encode magicV4 ++ u32.encode registry.nodeLimit

def writeConfig (config : TreeConfig) : Version → Bytes
  | .v1 | .v2 => treeConfigV2.encode ((oldConfig config).toTreeConfigV2, padding)
  | .v3 => treeConfigV3.encode (oldConfig config, padding)
  | .v4 => treeConfig.encode (config, padding)

def writeRefs (refs : List ChunkRef) : Bytes := u32.encode (count refs) ++ refs.flatMap chunkRef.encode

def writeCounters : Version → Bytes
  | .v1 => []
  | .v2 => u64.encode registry.currentLodNodeId ++ morton192.encode registry.lodWatermark
  | .v3 | .v4 => u64.encode registry.currentLodNodeId ++ (u64.encode registry.currentCollapsedNodeId ++
      (morton192.encode registry.lodWatermark ++ writeRefs registry.chunkTreeRefs))

def writeStates : Version → Bytes
  | .v1 => []
  | _ => u8.block registry.treeState ++ (u32.block registry.treeBand ++
      (u32.encode (count registry.inputRegistrySnapshot) ++ u8.block registry.inputRegistrySnapshot))

def writeRegistry (version : Version) : Bytes :=
  writeHead registry version ++ (u32.encode registry.currentId ++ (u32.encode registry.root ++
    (writeConfig padding registry.treeConfig version ++ (writeCounters registry version ++
      (u32.encode (count registry.locations) ++ (storageLocation.block registry.locations ++
        writeStates registry version))))))

def treeRegistrySize : Nat :=
  (u32.size + u32.size + u32.size + u32.size + treeConfig.size + u64.size + u64.size + morton192.size + u32.size +
    (inputDataId.size + 2 * u32.size) * (count registry.chunkTreeRefs).toNat + u32.size +
    storageLocation.size * (count registry.locations).toNat + u8.size * (count registry.locations).toNat +
    u32.size * (count registry.locations).toNat + u32.size + (count registry.inputRegistrySnapshot).toNat) % 2 ^ 32

-- The reader is given `uint32_t` of the size, an `int`.
def treeRegistrySerialize : Option Bytes :=
  let written := writeRegistry padding registry .v4
  if treeRegistrySize registry < written.length then none
  else some (written ++ List.replicate (treeRegistrySize registry - written.length) 0)

end

/-! ## Reading -/

def orFail (condition : Bool) (error : Error) : Reader Error Unit := fun input =>
  if condition then .error error else .ok ((), input)

def readConfig (v4 v3 : Bool) (base : TreeConfig) : Reader Error TreeConfig :=
  if v4 then do
    let read ← readMemory invalidRegistry treeConfig
    pure read.1
  else if v3 then do
    let old ← readMemory invalidRegistry treeConfigV3
    pure { base with
      scale := old.1.scale
      offset := old.1.offset
      storeOriginalOrder := old.1.storeOriginalOrder
      nodePointLimit := old.1.nodePointLimit
      readChunkByteTarget := old.1.readChunkByteTarget
      lodAllAttributes := 1
      lodAdaptiveSampling := 0 }
  else do
    let old ← readMemory invalidRegistry treeConfigV2
    pure { base with
      scale := old.1.scale
      offset := old.1.offset
      storeOriginalOrder := old.1.storeOriginalOrder
      nodePointLimit := old.1.nodePointLimit
      lodAllAttributes := 1
      lodAdaptiveSampling := 0 }

-- `chunk_tree_refs[chunk_id] = chunk_ref`
def assignRef (refs : List ChunkRef) (ref : ChunkRef) : List ChunkRef :=
  if ref.chunkId ∈ refs.map ChunkRef.chunkId then refs.map fun r => if r.chunkId = ref.chunkId then ref else r
  else refs ++ [ref]

def readRefs (base : List ChunkRef) : Reader Error (List ChunkRef) := do
  let count ← readMemory invalidRegistry u32
  let refs ← times (readMemory invalidRegistry chunkRef) count.toNat
  pure (refs.foldl assignRef base)

def readCounters (v3 v2 : Bool) (base : TreeRegistry) : Reader Error TreeRegistry :=
  if v2 then do
    let currentLodNodeId ← readMemory invalidRegistry u64
    if v3 then do
      let currentCollapsedNodeId ← readMemory invalidRegistry u64
      let lodWatermark ← readMemory invalidRegistry morton192
      let refs ← readRefs base.chunkTreeRefs
      pure { base with
        currentLodNodeId := currentLodNodeId
        currentCollapsedNodeId := currentCollapsedNodeId
        lodWatermark := lodWatermark
        chunkTreeRefs := refs }
    else do
      let lodWatermark ← readMemory invalidRegistry morton192
      pure { base with currentLodNodeId := currentLodNodeId, lodWatermark := lodWatermark }
  else pure base

def readStates (v2 : Bool) (count : Nat) (base : TreeRegistry) : Reader Error TreeRegistry :=
  if v2 then do
    let treeState ← readVector invalidRegistry u8 count
    let treeBand ← readVector invalidRegistry u32 count
    let snapshotSize ← readMemory invalidRegistry u32
    let snapshot ← readVector invalidRegistry u8 snapshotSize.toNat
    pure { base with treeState := treeState, treeBand := treeBand, inputRegistrySnapshot := snapshot }
  else pure { base with treeState := List.replicate count building, treeBand := List.replicate count treeBandNone }

def resize {α : Type} (values : List α) (count : Nat) (fill : α) : List α :=
  values.take count ++ List.replicate (count - values.length) fill

def readHead : Reader Error (BitVec 32 × BitVec 32) := do
  let firstWord ← readMemory invalidRegistry u32
  let v2 := decide (firstWord = magicV4) || decide (firstWord = magicV3) || decide (firstWord = magicV2)
  orFail (!v2 && decide (firstWord &&& 0x00ffffff#32 = 0x00475254#32)) newerRegistry
  if v2 then do
    let nodeLimit ← readMemory invalidRegistry u32
    pure (firstWord, nodeLimit)
  else pure (firstWord, firstWord)

def readRest (v2 : Bool) (counted : TreeRegistry) : Reader Error TreeRegistry := do
  let treeRegistryCount ← readMemory invalidRegistry u32
  let locations ← readVector invalidRegistry storageLocation treeRegistryCount.toNat
  let read ← readStates v2 treeRegistryCount.toNat { counted with locations := locations }
  pure { read with
    data := resize read.data treeRegistryCount.toNat none
    treeIdInitialized := resize read.treeIdInitialized treeRegistryCount.toNat false }

def readRegistry (base : TreeRegistry) : Reader Error TreeRegistry := do
  let head ← readHead
  let v4 := decide (head.1 = magicV4)
  let v3 := v4 || decide (head.1 = magicV3)
  let v2 := v3 || decide (head.1 = magicV2)
  let currentId ← readMemory invalidRegistry u32
  let root ← readMemory invalidRegistry u32
  let config ← readConfig v4 v3 base.treeConfig
  let counted ← readCounters v3 v2
    { base with nodeLimit := head.2, currentId := currentId, root := root, treeConfig := config }
  readRest v2 counted

def treeRegistryDeserialize (base : TreeRegistry) (data : Bytes) : Except Error TreeRegistry :=
  (readRegistry base data).map Prod.fst

/-! ## Reading back -/

-- The arrays over the tree ids are asserted to have one length, and the references are a map.
structure Described (registry : TreeRegistry) : Prop where
  states : registry.treeState.length = registry.locations.length
  bands : registry.treeBand.length = registry.locations.length
  refs : (registry.chunkTreeRefs.map ChunkRef.chunkId).Nodup

structure RegistryCounted (registry : TreeRegistry) : Prop where
  locations : registry.locations.length < 2 ^ 32
  refs : registry.chunkTreeRefs.length < 2 ^ 32
  snapshot : registry.inputRegistrySnapshot.length < 2 ^ 32

def isTrg (word : BitVec 32) : Bool := decide (word &&& 0x00ffffff#32 = 0x00475254#32)

def decodedConfig (base config : TreeConfig) : Version → TreeConfig
  | .v1 | .v2 => { base with
      scale := config.scale
      offset := config.offset
      storeOriginalOrder := config.storeOriginalOrder
      nodePointLimit := config.nodePointLimit
      lodAllAttributes := 1
      lodAdaptiveSampling := 0 }
  | .v3 => { config with
      lodAllAttributes := 1
      lodAdaptiveSampling := 0
      mutableDataset := base.mutableDataset
      reserved := base.reserved }
  | .v4 => config

-- What a version does not hold is left as it was in the registry read into.
def decoded (base registry : TreeRegistry) (version : Version) : TreeRegistry :=
  let count := registry.locations.length
  let read : TreeRegistry := { base with
    nodeLimit := registry.nodeLimit
    currentId := registry.currentId
    root := registry.root
    treeConfig := decodedConfig base.treeConfig registry.treeConfig version
    locations := registry.locations
    data := resize base.data count none
    treeIdInitialized := resize base.treeIdInitialized count false }
  let later : TreeRegistry := { read with
    currentLodNodeId := registry.currentLodNodeId
    lodWatermark := registry.lodWatermark
    treeState := registry.treeState
    treeBand := registry.treeBand
    inputRegistrySnapshot := registry.inputRegistrySnapshot }
  match version with
  | .v1 => { read with treeState := List.replicate count building, treeBand := List.replicate count treeBandNone }
  | .v2 => later
  | .v3 | .v4 => { later with
      currentCollapsedNodeId := registry.currentCollapsedNodeId
      chunkTreeRefs := registry.chunkTreeRefs.foldl assignRef base.chunkTreeRefs }

def firstWord (registry : TreeRegistry) : Version → BitVec 32
  | .v1 => registry.nodeLimit
  | .v2 => magicV2
  | .v3 => magicV3
  | .v4 => magicV4

theorem readsPassed (error : Error) : Reads invalidRegistry (orFail false error) [] () :=
  ⟨fun _ => rfl, fun _ less => absurd less (Nat.not_lt_zero _)⟩

theorem magicTrg {word : BitVec 32} (plain : isTrg word = false) : word ≠ magicV4 ∧ word ≠ magicV3 ∧ word ≠ magicV2 := by
  refine ⟨?_, ?_, ?_⟩ <;>
  · rintro rfl
    exact absurd plain (by decide)

theorem readsHead {registry : TreeRegistry} {version : Version}
    (plain : version = .v1 → isTrg registry.nodeLimit = false) :
    Reads invalidRegistry readHead (writeHead registry version) (firstWord registry version, registry.nodeLimit) := by
  have known : ∀ magic ∈ [magicV2, magicV3, magicV4], Reads invalidRegistry readHead
      (u32.encode magic ++ u32.encode registry.nodeLimit) (magic, registry.nodeLimit) := by
    intro magic here
    refine readsBind (readsMemory u32 magic) ?_
    have passed : ∀ after : Bytes, after = [] ++ after := fun _ => rfl
    rw [passed (u32.encode registry.nodeLimit)]
    simp only [List.mem_cons, List.not_mem_nil, or_false] at here
    rcases here with rfl | rfl | rfl
    · exact readsBind (readsPassed _) (readsMap (readsMemory u32 registry.nodeLimit) fun n => (magicV2, n))
    · exact readsBind (readsPassed _) (readsMap (readsMemory u32 registry.nodeLimit) fun n => (magicV3, n))
    · exact readsBind (readsPassed _) (readsMap (readsMemory u32 registry.nodeLimit) fun n => (magicV4, n))
  cases version with
  | v1 =>
    obtain ⟨not4, not3, not2⟩ := magicTrg (plain rfl)
    have whole : writeHead registry .v1 = u32.encode registry.nodeLimit ++ ([] ++ []) := (List.append_nil _).symm
    have trg : decide (registry.nodeLimit &&& 0x00ffffff#32 = 0x00475254#32) = false := plain rfl
    rw [whole]
    refine readsBind (readsMemory u32 _) ?_
    simp only [not4, not3, not2, trg, decide_false, Bool.or_false, Bool.not_false, Bool.and_false]
    exact readsBind (readsPassed _) (readsPure _)
  | v2 => exact known magicV2 (by simp)
  | v3 => exact known magicV3 (by simp)
  | v4 => exact known magicV4 (by simp)

theorem readsRefs (base : List ChunkRef) {refs : List ChunkRef} (small : refs.length < 2 ^ 32) :
    Reads invalidRegistry (readRefs base) (writeRefs refs) (refs.foldl assignRef base) := by
  have each : Reads invalidRegistry (times (readMemory invalidRegistry chunkRef) (count refs).toNat)
      (refs.flatMap chunkRef.encode) refs := by
    rw [countBack small]
    exact readsTimes fun ref _ => readsMemory chunkRef ref
  exact readsBind (readsMemory u32 _) (readsMap each _)

theorem refsFresh {refs : List ChunkRef} (distinct : (refs.map ChunkRef.chunkId).Nodup) :
    refs.foldl assignRef [] = refs := by
  have grown : ∀ base : List ChunkRef, ((base ++ refs).map ChunkRef.chunkId).Nodup →
      refs.foldl assignRef base = base ++ refs := by
    clear distinct
    induction refs with
    | nil => simp
    | cons ref refs ih =>
      intro base distinct
      have fresh : ref.chunkId ∉ base.map ChunkRef.chunkId := by
        rw [List.map_append, List.map_cons, List.nodup_append'] at distinct
        exact fun here => distinct.2.2 here List.mem_cons_self
      have added : assignRef base ref = base ++ [ref] := if_neg fresh
      rw [List.foldl_cons, added, ih (base ++ [ref]) (by simpa using distinct)]
      simp
  simpa using grown [] (by simpa using distinct)

theorem readsRegistry (padding : Padding) (base : TreeRegistry) {registry : TreeRegistry} (described : Described registry)
    (counted : RegistryCounted registry) {version : Version} (plain : version = .v1 → isTrg registry.nodeLimit = false) :
    Reads invalidRegistry (readRegistry base) (writeRegistry padding registry version) (decoded base registry version) := by
  have number : (count registry.locations).toNat = registry.locations.length := countBack counted.locations
  have states : count registry.locations = count registry.treeState := by simp [count, described.states]
  have bands : count registry.locations = count registry.treeBand := by simp [count, described.bands]
  have statesOf : ∀ state : TreeRegistry, Reads invalidRegistry (readStates true (count registry.locations).toNat state)
      (u8.block registry.treeState ++ (u32.block registry.treeBand ++
        (u32.encode (count registry.inputRegistrySnapshot) ++ u8.block registry.inputRegistrySnapshot)))
      { state with
        treeState := registry.treeState
        treeBand := registry.treeBand
        inputRegistrySnapshot := registry.inputRegistrySnapshot } := by
    intro state
    refine readsBind ?_ (readsBind ?_ (readsBind (readsMemory u32 _) (readsMap (readsSized u8 counted.snapshot) _)))
    · rw [states]
      exact readsSized u8 (by rw [described.states]; exact counted.locations)
    · rw [bands]
      exact readsSized u32 (by rw [described.bands]; exact counted.locations)
  have early : ∀ state : TreeRegistry, Reads invalidRegistry (readStates false (count registry.locations).toNat state) []
      { state with
        treeState := List.replicate registry.locations.length building
        treeBand := List.replicate registry.locations.length treeBandNone } := by
    intro state
    rw [number]
    exact readsPure _
  have rest : ∀ {v2 : Bool} {state read : TreeRegistry} {bytes : Bytes},
      Reads invalidRegistry (readStates v2 (count registry.locations).toNat { state with locations := registry.locations })
        bytes read →
      Reads invalidRegistry (readRest v2 state)
        (u32.encode (count registry.locations) ++ (storageLocation.block registry.locations ++ bytes))
        { read with
          data := resize read.data registry.locations.length none
          treeIdInitialized := resize read.treeIdInitialized registry.locations.length false } := by
    intro v2 state read bytes reads
    have resized := readsMap reads fun read : TreeRegistry => { read with
      data := resize read.data (count registry.locations).toNat none
      treeIdInitialized := resize read.treeIdInitialized (count registry.locations).toNat false }
    have whole : Reads invalidRegistry (readRest v2 state) _ _ :=
      readsBind (readsMemory u32 _) (readsBind (readsSized storageLocation counted.locations) resized)
    rwa [number] at whole
  refine readsBind (readsHead plain) (readsBind (readsMemory u32 _) (readsBind (readsMemory u32 _) ?_))
  cases version with
  | v1 =>
    obtain ⟨not4, not3, not2⟩ := magicTrg (plain rfl)
    simp only [firstWord, not4, not3, not2, decide_false, Bool.or_false]
    exact readsBind (readsMap (readsMemory treeConfigV2 _) _) (readsBind (readsPure _) (rest (early _)))
  | v2 =>
    exact readsBind (readsMap (readsMemory treeConfigV2 _) _) (readsBind (readsBind (readsMemory u64 _)
      (readsMap (readsMemory morton192 _) _)) (rest (statesOf _)))
  | v3 =>
    exact readsBind (readsMap (readsMemory treeConfigV3 _) _) (readsBind (readsBind (readsMemory u64 _) (readsBind
      (readsMemory u64 _) (readsBind (readsMemory morton192 _) (readsMap (readsRefs _ counted.refs) _)))) (rest (statesOf _)))
  | v4 =>
    exact readsBind (readsMap (readsMemory treeConfig _) _) (readsBind (readsBind (readsMemory u64 _) (readsBind
      (readsMemory u64 _) (readsBind (readsMemory morton192 _) (readsMap (readsRefs _ counted.refs) _)))) (rest (statesOf _)))

/-! ## The blob of a registry -/

def registryBytes (registry : TreeRegistry) : Nat :=
  u32.size + u32.size + u32.size + u32.size + treeConfig.size + u64.size + u64.size + morton192.size + u32.size +
    (inputDataId.size + 2 * u32.size) * registry.chunkTreeRefs.length + u32.size +
    storageLocation.size * registry.locations.length + u8.size * registry.locations.length +
    u32.size * registry.locations.length + u32.size + registry.inputRegistrySnapshot.length

def RegistryFits (registry : TreeRegistry) : Prop := registryBytes registry < 2 ^ 32

instance (registry) : Decidable (RegistryFits registry) := by unfold RegistryFits; infer_instance

@[simp] theorem treeConfigSize : treeConfig.size = 56 := rfl
@[simp] theorem chunkRefSize : chunkRef.size = 16 := rfl

theorem registryCounted {registry : TreeRegistry} (fits : RegistryFits registry) : RegistryCounted registry := by
  unfold RegistryFits registryBytes at fits
  simp only [inputDataIdSize, u32Size, storageLocationSize, u8Size] at fits
  exact ⟨by omega, by omega, by omega⟩

theorem registryLength (padding : Padding) {registry : TreeRegistry} (described : Described registry) :
    (writeRegistry padding registry .v4).length = registryBytes registry := by
  have refs : (writeRefs registry.chunkTreeRefs).length = 4 + 16 * registry.chunkTreeRefs.length := by
    have block := chunkRef.blockLength registry.chunkTreeRefs
    rw [Image.block] at block
    simp [writeRefs, block]
  simp [writeRegistry, writeHead, writeConfig, writeCounters, writeStates, registryBytes, refs, described.states,
    described.bands]
  omega

theorem registrySerialized (padding : Padding) {registry : TreeRegistry} (described : Described registry)
    (fits : RegistryFits registry) :
    treeRegistrySerialize padding registry = some (writeRegistry padding registry .v4) := by
  have counted := registryCounted fits
  have size : treeRegistrySize registry = registryBytes registry := by
    rw [treeRegistrySize, countBack counted.locations, countBack counted.refs, countBack counted.snapshot]
    exact Nat.mod_eq_of_lt fits
  rw [treeRegistrySerialize, size, registryLength padding described, if_neg (Nat.lt_irrefl _), Nat.sub_self,
    List.replicate_zero, List.append_nil]

-- A registry as it is constructed.
def fresh : TreeRegistry where
  nodeLimit := 0
  currentId := 0
  root := 0
  treeConfig := ⟨0, fun _ => 0, false, 200000#32, 0x4000000#64, 0, 0, 0, 0⟩
  currentLodNodeId := 0x8000000000000000#64
  currentCollapsedNodeId := 0x4000000000000000#64
  chunkTreeRefs := []
  lodWatermark := ⟨fun _ => 0⟩
  data := []
  locations := []
  treeIdInitialized := []
  treeState := []
  treeBand := []
  inputRegistrySnapshot := []

-- What a blob of each version holds of a registry, the rest as it is constructed; no tree is in memory.
def held (registry : TreeRegistry) (version : Version) : TreeRegistry :=
  let newest : TreeRegistry := { registry with
    data := List.replicate registry.locations.length none
    treeIdInitialized := List.replicate registry.locations.length false }
  let classic : TreeConfig := { registry.treeConfig with
    lodAllAttributes := 1, lodAdaptiveSampling := 0, mutableDataset := 0, reserved := 0 }
  let second : TreeRegistry := { newest with
    treeConfig := { classic with readChunkByteTarget := fresh.treeConfig.readChunkByteTarget }
    currentCollapsedNodeId := fresh.currentCollapsedNodeId
    chunkTreeRefs := [] }
  match version with
  | .v4 => newest
  | .v3 => { newest with treeConfig := classic }
  | .v2 => second
  | .v1 => { second with
      currentLodNodeId := fresh.currentLodNodeId
      lodWatermark := fresh.lodWatermark
      treeState := List.replicate registry.locations.length building
      treeBand := List.replicate registry.locations.length treeBandNone
      inputRegistrySnapshot := [] }

theorem decodedHeld {registry : TreeRegistry} (described : Described registry) (version : Version) :
    decoded fresh registry version = held registry version := by
  have refs := refsFresh described.refs
  cases version with
  | v1 => simp [decoded, held, decodedConfig, resize, fresh]
  | v2 => simp [decoded, held, decodedConfig, resize, fresh]
  | v3 => simp [decoded, held, decodedConfig, resize, fresh, refs]
  | v4 => simp [decoded, held, decodedConfig, resize, fresh, refs]

theorem newerRefused {word : BitVec 32} (trg : isTrg word = true)
    (unknown : word ≠ magicV4 ∧ word ≠ magicV3 ∧ word ≠ magicV2) (rest : Bytes) :
    treeRegistryDeserialize fresh (u32.encode word ++ rest) = .error newerRegistry := by
  have read : Reads invalidRegistry (readMemory invalidRegistry u32) (u32.encode word) word := readsMemory u32 word
  have first := read.1 rest
  have mask : decide (word &&& 0x00ffffff#32 = 0x00475254#32) = true := trg
  have head : readHead (u32.encode word ++ rest) = .error newerRegistry := by
    simp only [readHead, bind, StateT.bind, first, Except.bind]
    simp [unknown, mask, orFail]
  simp only [treeRegistryDeserialize, readRegistry, bind, StateT.bind, head, Except.bind]
  rfl

theorem blobsRead :
    (∀ tree : Tree, (∀ i, Parallel (tree.levels i)) → Fits tree → ∃ blob, treeSerialize tree = some blob ∧
      treeDeserialize blob = .ok tree ∧
      ∀ n < (writeTree tree).length, treeDeserialize (cutAt blob n) = .error invalidTree) ∧
    (∀ padding (registry : TreeRegistry), Described registry → RegistryFits registry →
      treeRegistrySerialize padding registry = some (writeRegistry padding registry .v4)) ∧
    (∀ padding (registry : TreeRegistry) version, Described registry → RegistryCounted registry →
      (version = .v1 → isTrg registry.nodeLimit = false) →
      treeRegistryDeserialize fresh (writeRegistry padding registry version) = .ok (held registry version) ∧
      ∀ n < (writeRegistry padding registry version).length,
        treeRegistryDeserialize fresh ((writeRegistry padding registry version).take n) = .error invalidRegistry) ∧
    ∀ word : BitVec 32, isTrg word = true → word ≠ magicV4 ∧ word ≠ magicV3 ∧ word ≠ magicV2 → ∀ rest,
      treeRegistryDeserialize fresh (u32.encode word ++ rest) = .error newerRegistry := by
  refine ⟨fun tree parallel fits => ?_, fun padding registry described fits => registrySerialized padding described fits,
    fun padding registry version described counted plain => ?_, fun word trg unknown rest => newerRefused trg unknown rest⟩
  · refine ⟨_, treeSerialized parallel fits, ?_, fun n short => treeCut parallel fits short _ _⟩
    have length : (writeTree tree ++ List.replicate (4 * emptyLevels tree) 0).length = treeBytes tree := by
      rw [List.length_append, List.length_replicate]
      exact writtenLength parallel (fitsCounted fits)
    rw [← length]
    exact treeDeserialized parallel fits _
  · have reads := readsRegistry padding fresh described counted plain
    rw [decodedHeld described] at reads
    constructor
    · have whole := reads.1 []
      rw [List.append_nil] at whole
      rw [treeRegistryDeserialize, whole]
      rfl
    · intro n short
      rw [treeRegistryDeserialize, reads.2 n short]
      rfl

/-! ## Two blobs that are not refused -/

def emptyTree : Tree where
  mortonMin := ⟨fun _ => 0⟩
  mortonMax := ⟨fun _ => 0⟩
  levels _ := ⟨[], [], [], []⟩
  subTrees := []
  id := 0
  magnitude := 0
  storageMap := emptyMap

-- The tree's last twenty bytes are not written; the word is no version's magic.
theorem shortBlobsAccepted : treeSerialize emptyTree = some ⟨writeTree emptyTree ++ List.replicate 20 0, 101⟩ ∧
    (treeDeserialize (cutAt ⟨writeTree emptyTree ++ List.replicate 20 0, 101⟩ 81)).isOk = true ∧
    (treeRegistryDeserialize fresh (u32.encode 7#32 ++ List.replicate 52 0)).isOk = true := by
  decide +kernel

/-! A root whose octant 1 is a leaf of three points of a unit that two trees hold; the dataset is mutable. -/

def code (n : BitVec 64) : Code .m192 := ⟨fun i => if i.val = 0 then n else 0⟩

def leafOfThree : PointsCollection := ⟨3, code 0x40000000000#64, code 0x40000000007#64, 0, [⟨⟨5, 0⟩, 2, 3⟩]⟩

def smallTree : Tree where
  mortonMin := code 0
  mortonMax := code 0x1FFFFFFFFFFF#64
  levels i := match i with
    | 0 => ⟨[2], [0], [0], [⟨0, code 0, code 0, 0, []⟩]⟩
    | 1 => ⟨[0], [0], [0x200], [leafOfThree]⟩
    | _ => ⟨[], [], [], []⟩
  subTrees := []
  id := 0
  magnitude := 2
  storageMap := ⟨[⟨⟨5, 0⟩, 1, 1, [⟨0, 64, 128⟩, ⟨0, 32, 192⟩]⟩], by decide⟩

def smallRegistry : TreeRegistry := { fresh with
  nodeLimit := 4
  currentId := 2
  treeConfig := { fresh.treeConfig with scale := 0x3F50624DD2F1A9FC#64, nodePointLimit := 4, mutableDataset := 1 }
  currentLodNodeId := 0x8000000000000003#64
  chunkTreeRefs := [⟨⟨5, 0⟩, 2, 8⟩]
  locations := [⟨0, 200, 256⟩, ⟨0, 120, 512⟩]
  data := [none, none]
  treeIdInitialized := [false, false]
  treeState := [building, 1]
  treeBand := [treeBandNone, 0]
  inputRegistrySnapshot := [1, 2, 3] }

theorem smallRead : (∃ blob, treeSerialize smallTree = some blob ∧ treeDeserialize blob = .ok smallTree) ∧
    (∃ blob, treeRegistrySerialize 0 smallRegistry = some blob ∧ treeRegistryDeserialize fresh blob = .ok smallRegistry) ∧
    treeRegistryDeserialize fresh (writeRegistry 0 smallRegistry .v3) = .ok { smallRegistry with
      treeConfig := { smallRegistry.treeConfig with lodAllAttributes := 1, mutableDataset := 0 } } := by
  have parallel : ∀ i, Parallel (smallTree.levels i) := by
    unfold Parallel
    decide
  have described : Described smallRegistry := ⟨rfl, rfl, by decide⟩
  have fits : RegistryFits smallRegistry := by decide
  obtain ⟨trees, written, registries, _⟩ := blobsRead
  refine ⟨?_, ⟨_, written 0 smallRegistry described fits, ?_⟩, ?_⟩
  · exact (trees smallTree parallel (by decide)).imp fun _ read => ⟨read.1, read.2.1⟩
  · exact (registries 0 smallRegistry .v4 described (registryCounted fits) nofun).1
  · exact (registries 0 smallRegistry .v3 described (registryCounted fits) nofun).1

end Dewfall.RegistrySerialize
