import Dewfall.Core.StorageMap
import Dewfall.Converter.SpillFile
import Dewfall.Converter.TreeMerge
import Dewfall.General.KeyedStream
import Dewfall.General.Words

/-! Attributes that are joined to the units of a dataset by a key. Values are spilled, sorted in runs and
merged against the keys of as many units as fit the budget. The store of blobs is a parameter, as is the
order in which the units of a tree are walked; nothing else changes a tree while an amend is committed.
Paths of spill files, statistics and the widths of sizes in bytes are left out. -/
namespace Dewfall.AttributeAmend
open General General.StableSort SpillFile StorageMap TreeMerge

structure DewError where
  code : Int
  msg : String
  deriving DecidableEq, Repr

def kDefaultMemoryBudget : Nat := 512 * 2 ^ 20

def amendMemoryBudget (overridden : Option Nat) : Nat :=
  match overridden with
  | some parsed => if 4096 ≤ parsed then parsed else kDefaultMemoryBudget
  | none => kDefaultMemoryBudget

def typeSize : DewType → Nat
  | .u8 | .i8 => 1
  | .u16 | .i16 => 2
  | .u32 | .i32 | .m32 | .r32 => 4
  | .u64 | .i64 | .m64 | .r64 => 8
  | .m128 => 16
  | .m192 => 24

def sizeForFormat (a : Attribute) : Nat := typeSize a.type * a.components

def isIntegerType : DewType → Bool
  | .u8 | .i8 | .u16 | .i16 | .u32 | .i32 | .u64 | .i64 => true
  | _ => false

def littleEndian : Nat → Nat → Bytes
  | 0, _ => []
  | width + 1, n => UInt8.ofNat n :: littleEndian width (n / 256)

def decode : Bytes → Nat
  | [] => 0
  | b :: rest => b.toNat + 256 * decode rest

-- A signed key is extended to 64 bits and then read as an unsigned one.
def signExtend (bits n : Nat) : Nat := if n < 2 ^ (bits - 1) then n else 2 ^ 64 - 2 ^ bits + n

def widenKey (raw : Bytes) : DewType → Nat
  | .u8 => decode (raw.take 1)
  | .i8 => signExtend 8 (decode (raw.take 1))
  | .u16 => decode (raw.take 2)
  | .i16 => signExtend 16 (decode (raw.take 2))
  | .u32 => decode (raw.take 4)
  | .i32 => signExtend 32 (decode (raw.take 4))
  | .u64 | .i64 => decode (raw.take 8)
  | _ => 0

-- The `j`-th element of `size` bytes.
def element (size : Nat) (data : Bytes) (j : Nat) : Bytes := (data.drop (j * size)).take size

/-! ## Declarations and values -/

structure PendingAttribute where
  info : Attribute
  keyAttribute : List Char
  spill : Writer
  lastKey : Option UInt64
  ascending : Bool

def elementSize (p : PendingAttribute) : Nat := sizeForFormat p.info
def recordSize (a : Attribute) : Nat := 8 + sizeForFormat a

def declare (pending : List PendingAttribute) (info : Attribute) (keyAttribute : List Char) :
    Except DewError (List PendingAttribute) :=
  if info.name = [] ∨ keyAttribute = [] then
    .error ⟨-1, "an attribute and the attribute it joins on both need names"⟩
  else if pending.any (·.info.name = info.name) then
    .error ⟨-1, "attribute '" ++ String.ofList info.name ++ "' is already declared for this amend"⟩
  else if sizeForFormat info = 0 then
    .error ⟨-1, "attribute '" ++ String.ofList info.name ++ "' has no representable element size"⟩
  else .ok (pending ++ [⟨info, keyAttribute, openWrite (recordSize info), none, true⟩])

def addRecord (p : PendingAttribute) (key : UInt64) (value : Bytes) : PendingAttribute :=
  { p with
    ascending := p.ascending && !(p.lastKey.any fun last => key < last)
    lastKey := some key
    spill := append p.spill (littleEndian 8 key.toNat ++ value) }

def addRecords (p : PendingAttribute) (keys : List UInt64) (values : Bytes) : PendingAttribute :=
  keys.zipIdx.foldl (fun p key => addRecord p key.1 (element (elementSize p) values key.2)) p

-- `false` where no attribute of that name is pending.
def addData : List PendingAttribute → List Char → List UInt64 → Bytes → List PendingAttribute × Bool
  | [], _, _, _ => ([], false)
  | p :: rest, name, keys, values =>
    if p.info.name ≠ name then
      let (rest, added) := addData rest name keys values
      (p :: rest, added)
    else (addRecords p keys values :: rest, true)

/-! ## Sorting the spilled records -/

def recordKey (record : Bytes) : Nat := decode (record.take 8)

def endsMidRecord : DewError := ⟨-1, "spill file ends mid-record"⟩

-- Up to `left` records are read behind those in `block`; the flag says that the file may hold more.
def stageRun : Nat → Reader → List Bytes → Except DewError (List Bytes × Reader × Bool)
  | 0, r, block => .ok (block, r, true)
  | left + 1, r, block =>
    match next r with
    | .record bytes r => stageRun left r (block ++ [bytes])
    | .finished => .ok (block, r, false)
    | .endsMidRecord => .error endsMidRecord

-- The records of a run are numbered in 32 bits.
def sortRun (block : List Bytes) : List Bytes :=
  (sortBy (fun i => recordKey (block.getD i [])) ((List.range block.length).map u32)).map fun i => block.getD i []

def writeRun (recordSize : Nat) (run : List Bytes) : Bytes := (flush (run.foldl append (openWrite recordSize))).file

def formRuns (perRun recordSize : Nat) : Nat → Reader → Except DewError (List Bytes)
  | 0, _ => .ok []
  | fuel + 1, r =>
    match stageRun perRun r [] with
    | .error error => .error error
    | .ok (block, r, more) =>
      if block = [] then .ok []
      else
        let run := writeRun recordSize (sortRun block)
        if more then
          match formRuns perRun recordSize fuel r with
          | .error error => .error error
          | .ok runs => .ok (run :: runs)
        else .ok [run]

structure HeapEntry where
  key : Nat
  run : Nat
  record : Bytes

def worse (a b : HeapEntry) : Bool := if a.key ≠ b.key then b.key < a.key else b.run < a.run

def top : List HeapEntry → Option HeapEntry
  | [] => none
  | e :: rest =>
    match top rest with
    | none => some e
    | some best => if worse e best then some best else some e

-- Runs have at most one entry each.
def pop (heap : List HeapEntry) (e : HeapEntry) : List HeapEntry := heap.filter (·.run ≠ e.run)

def pushNext (readers : List Reader) (heap : List HeapEntry) (run : Nat) :
    Except DewError (List Reader × List HeapEntry) :=
  match readers[run]?.map next with
  | some (.record bytes r) => .ok (readers.set run r, heap ++ [⟨recordKey bytes, run, bytes⟩])
  | some .endsMidRecord => .error endsMidRecord
  | some .finished | none => .ok (readers, heap)

def pushFirst : List Nat → List Reader → List HeapEntry → Except DewError (List Reader × List HeapEntry)
  | [], readers, heap => .ok (readers, heap)
  | run :: rest, readers, heap =>
    match pushNext readers heap run with
    | .error error => .error error
    | .ok (readers, heap) => pushFirst rest readers heap

def mergeRuns : Nat → List Reader → List HeapEntry → Writer → Except DewError Writer
  | 0, _, _, out => .ok out
  | fuel + 1, readers, heap, out =>
    match top heap with
    | none => .ok out
    | some e =>
      match pushNext readers (pop heap e) e.run with
      | .error error => .error error
      | .ok (readers, heap) => mergeRuns fuel readers heap (append out e.record)

def sortSpillByKey (budget : Nat) (source : Bytes) (recordSize : Nat) : Except DewError Bytes :=
  let perRun := max 1 (budget / recordSize)
  match formRuns perRun recordSize (source.length + 1) (openRead source recordSize) with
  | .error error => .error error
  | .ok [run] => .ok run
  | .ok runs =>
    -- The runs are numbered in 32 bits, as are the units of a slice.
    match pushFirst (List.range (u32 runs.length)) (runs.map fun run => openRead run recordSize) [] with
    | .error error => .error error
    | .ok (readers, heap) =>
      match mergeRuns (source.length + 1) readers heap (openWrite recordSize) with
      | .error error => .error error
      | .ok out => .ok (flush out).file

/-! ## The join -/

structure Address where
  key : Nat
  unit : Nat
  slot : Nat
  deriving DecidableEq, Repr

-- `std::sort`: the order of equal keys is left open.
structure AddressSort where
  sort : List Address → List Address
  perm : ∀ l, (sort l).Perm l
  sorted : ∀ l, (sort l).Pairwise fun a b => a.key ≤ b.key

abbrev Buffers := List (List Bytes)

def put (buffers : Buffers) (a : Address) (value : Bytes) : Buffers := buffers.modify a.unit (·.set a.slot value)

-- The rest of the records of `key`: the last of them, and the record behind them.
def lastOfKey : Nat → Nat → Bytes → Reader → Except DewError (Bytes × Option (Bytes × Reader))
  | 0, _, scratch, _ => .ok (scratch, none)
  | fuel + 1, key, scratch, r =>
    match next r with
    | .record bytes r => if recordKey bytes = key then lastOfKey fuel key bytes r else .ok (scratch, some (bytes, r))
    | .finished => .ok (scratch, none)
    | .endsMidRecord => .error endsMidRecord

def mergeValues : Nat → Option (Bytes × Reader) → List Address → Buffers → Except DewError Buffers
  | fuel + 1, some (record, r), a :: addresses, buffers =>
    let key := recordKey record
    match lastOfKey (fuel + 1) key record r with
    | .error error => .error error
    | .ok (scratch, ahead) =>
      let left := (a :: addresses).dropWhile (·.key < key)
      mergeValues fuel ahead (left.dropWhile (·.key = key))
        ((left.takeWhile (·.key = key)).foldl (fun buffers a => put buffers a (scratch.drop 8)) buffers)
  | _, _, _, buffers => .ok buffers

def joinValues (sorted : Bytes) (recordSize : Nat) (addresses : List Address) (buffers : Buffers) :
    Except DewError Buffers :=
  match next (openRead sorted recordSize) with
  | .record bytes r => mergeValues (sorted.length + 1) (some (bytes, r)) addresses buffers
  | .finished => .ok buffers
  | .endsMidRecord => .error endsMidRecord

/-! ## Trees and blobs -/

def appendStorage (m : InputStorageMap) (id : InputId) (attributesId : Nat) (extra : List Location) :
    Option InputStorageMap :=
  (m.map id).map fun value =>
    ⟨Function.update m.map id (some { value with attributesId := attributesId, storage := value.storage ++ extra }),
      m.discarded⟩

structure Tree where
  storageMap : InputStorageMap
  isDirty : Bool
  -- The units in the order they are walked.
  units : List InputId
  listed : ∀ id, id ∈ units ↔ (storageMap.map id).isSome
  nodup : units.Nodup

structure AttributeWrite where
  data : Bytes
  pointCount : Nat
  info : Attribute
  isLod : Bool
  deriving DecidableEq, Repr

-- What the amend relies on of the store: what is in use stays as it is, and a blob written is in use.
structure BlobStore (σ : Type) where
  used : σ → Location → Prop
  read : σ → Location → Except DewError Bytes
  writeAttributes : σ → List AttributeWrite → σ × List Location × DewError
  kept : ∀ s writes l, used s l → used (writeAttributes s writes).1 l ∧
    read (writeAttributes s writes).1 l = read s l
  written : ∀ s writes, (writeAttributes s writes).2.2.code = 0 →
    List.Forall₂ (fun write l => l.size ≠ 0 ∧ used (writeAttributes s writes).1 l ∧
      read (writeAttributes s writes).1 l = .ok write.data) writes (writeAttributes s writes).2.1

structure World (σ : Type) where
  trees : List (Option Tree)
  configs : Configs
  store : σ
  -- The blobs that the amend has had written.
  written : List Location

structure StorageUnitRef where
  tree : Nat
  id : InputId
  attributesId : Nat
  storage : List Location
  deriving DecidableEq, Repr

structure StorageUnitAppend where
  tree : Nat
  id : InputId
  attributesId : Nat
  deriving DecidableEq, Repr

def snapshotTree (tree : Tree) (treeId : Nat) : List StorageUnitRef :=
  tree.units.filterMap fun id => (tree.storageMap.map id).map fun value => ⟨treeId, id, value.attributesId, value.storage⟩

def snapshotStorageUnits (trees : List (Option Tree)) : List StorageUnitRef :=
  trees.zipIdx.flatMap fun t =>
    match t.1 with
    | none => []
    | some tree => snapshotTree tree t.2

theorem appendListed {m after : InputStorageMap} {id : InputId} {attributesId : Nat} {extra : List Location}
    (done : appendStorage m id attributesId extra = some after) (other : InputId) :
    (after.map other).isSome = (m.map other).isSome := by
  obtain ⟨value, known, rfl⟩ := Option.map_eq_some_iff.mp done
  by_cases same : other = id
  · rw [same]
    simp [known]
  · simp [Function.update_of_ne same]

def appendUnit (tree : Tree) (a : StorageUnitAppend) (location : Location) : Tree :=
  match done : appendStorage tree.storageMap a.id a.attributesId [location] with
  | none => tree
  | some after => { tree with
      storageMap := after, isDirty := true, listed := fun id => (tree.listed id).trans (by rw [appendListed done id]) }

def appendStorageUnits (trees : List (Option Tree)) (appends : List (StorageUnitAppend × Location)) : List (Option Tree) :=
  appends.foldl (fun trees a => trees.modify a.1.tree (Option.map fun tree => appendUnit tree a.1 a.2)) trees

/-! ## The commit -/

def getAttributeIndex (configs : Configs) (attributesId : Nat) (name : List Char) : Option (Nat × Attribute) :=
  createAttributeSourceLodInto name (configs.getD attributesId [])

def configWithAttributeAppended (configs : Configs) (base : Nat) (info : Attribute) : Configs × Nat :=
  getAttributeConfigIndex configs (configs.getD base [] ++ [info])

structure Slice where
  configs : Configs
  addresses : List Address
  writes : List AttributeWrite
  appends : List StorageUnitAppend
  buffers : Buffers
  sliceBytes : Nat

-- The keys of a unit's points; `none` where the unit is passed over.
def unitKeys (read : Location → Except DewError Bytes) (configs : Configs) (p : PendingAttribute)
    (attributesId : Nat) (storage : List Location) : Except DewError (Option (List Nat)) :=
  if (getAttributeIndex configs attributesId p.info.name).isSome then .ok none
  else
    match getAttributeIndex configs attributesId p.keyAttribute with
    | none => .ok none
    | some (index, key) =>
      match storage[index]? with
      | none => .ok none
      | some location =>
        if key.components ≠ 1 ∨ !isIntegerType key.type ∨ location.size = 0 then .ok none
        else
          match read location with
          | .error error => .error error
          | .ok data =>
            let pointCount := data.length / sizeForFormat key
            if pointCount = 0 then .ok none
            else .ok (some ((List.range pointCount).map fun i => widenKey (element (sizeForFormat key) data i) key.type))

-- `sizeof(address_t)` is 16.
def addUnit (p : PendingAttribute) (unit : StorageUnitRef) (keys : List Nat) (s : Slice) : Slice :=
  let (configs, attributesId) := configWithAttributeAppended s.configs unit.attributesId p.info
  { configs := configs
    addresses := s.addresses ++ keys.mapIdx fun slot key => ⟨key, u32 s.buffers.length, slot⟩
    writes := s.writes ++ [⟨[], keys.length, p.info, !isLeaf unit.id⟩]
    appends := s.appends ++ [⟨unit.tree, unit.id, attributesId⟩]
    buffers := s.buffers ++ [List.replicate keys.length (List.replicate (elementSize p) 0)]
    sliceBytes := s.sliceBytes + keys.length * (16 + elementSize p) }

def takeSlice (read : Location → Except DewError Bytes) (budget : Nat) (p : PendingAttribute) :
    List StorageUnitRef → Slice → Except DewError (Slice × List StorageUnitRef)
  | [], s => .ok (s, [])
  | unit :: rest, s =>
    if budget ≤ s.sliceBytes then .ok (s, unit :: rest)
    else
      match unitKeys read s.configs p unit.attributesId unit.storage with
      | .error error => .error error
      | .ok none => takeSlice read budget p rest s
      | .ok (some keys) => takeSlice read budget p rest (addUnit p unit keys s)

variable {σ : Type} (store : BlobStore σ) (sort : AddressSort)

def writeSlice (p : PendingAttribute) (sorted : Bytes) (w : World σ) (s : Slice) : Except DewError (World σ) :=
  if s.writes = [] then .ok { w with configs := s.configs }
  else
    match (if p.spill.records = 0 then .ok s.buffers
      else joinValues sorted (recordSize p.info) (sort.sort s.addresses) s.buffers) with
    | .error error => .error error
    | .ok buffers =>
      -- The size of a buffer is a product in 32 bits.
      let writes := List.zipWith (fun write buffer =>
        { write with data := buffer.flatten.take (u32 (write.pointCount * elementSize p)) }) s.writes buffers
      match store.writeAttributes w.store writes with
      | (after, locations, error) =>
        if error.code ≠ 0 then .error error
        else if locations.length ≠ s.appends.length then
          .error ⟨-1, "attribute amend wrote a different number of blobs than it asked for"⟩
        else .ok ⟨appendStorageUnits w.trees (s.appends.zip locations), s.configs, after, w.written ++ locations⟩

def amendUnits (budget : Nat) (p : PendingAttribute) (sorted : Bytes) :
    Nat → List StorageUnitRef → World σ → Except DewError (World σ)
  | 0, _, w => .ok w
  | _ + 1, [], w => .ok w
  | fuel + 1, units, w =>
    match takeSlice (store.read w.store) budget p units ⟨w.configs, [], [], [], [], 0⟩ with
    | .error error => .error error
    | .ok (s, rest) =>
      match writeSlice store sort p sorted w s with
      | .error error => .error error
      | .ok w => amendUnits budget p sorted fuel rest w

def sortedValues (budget : Nat) (p : PendingAttribute) : Except DewError Bytes :=
  if p.ascending then .ok (flush p.spill).file
  else sortSpillByKey budget (flush p.spill).file (recordSize p.info)

def amendAttribute (budget : Nat) (w : World σ) (p : PendingAttribute) : Except DewError (World σ) :=
  match sortedValues budget p with
  | .error error => .error error
  | .ok sorted =>
    let units := snapshotStorageUnits w.trees
    if units = [] then .error ⟨-1, "attribute amend found no units to amend (is every tree loaded?)"⟩
    else amendUnits store sort budget p sorted units.length units w

def commit (budget : Nat) (pending : List PendingAttribute) (w : World σ) : Except DewError (World σ) :=
  pending.foldlM (amendAttribute store sort budget) w

end Dewfall.AttributeAmend
