import Dewfall.Core.StorageMap
import Dewfall.General.Compaction

/-! A region request over the nodes its walk has selected. Blobs are read whole and decompressed; what a
read ends with is given for each read the request issues. The layout of a unit's header, the double
arithmetic of a position and the test against the box are parameters. A staged buffer is kept as the list
of its elements; decode threads only fill stages of their own. -/
namespace Dewfall.RegionRequest
open General.Compaction StorageMap

inductive DewType where
  | u8 | i8 | u16 | i16 | u32 | i32 | m32 | r32 | u64 | i64 | m64 | r64 | m128 | m192
  deriving DecidableEq, Repr

structure Format where
  type : DewType
  components : Nat
  deriving DecidableEq, Repr

def typeSize : DewType → Nat
  | .u8 | .i8 => 1
  | .u16 | .i16 => 2
  | .u32 | .i32 | .m32 | .r32 => 4
  | .u64 | .i64 | .m64 | .r64 => 8
  | .m128 => 16
  | .m192 => 24

def sizeForFormat (f : Format) : Nat := typeSize f.type * f.components

def isMorton : DewType → Bool
  | .m32 | .m64 | .m128 | .m192 => true
  | _ => false

inductive PositionFormat where | r64Absolute | r32Relative | i32Grid
  deriving DecidableEq, Repr

def positionStride : PositionFormat → Nat
  | .r64Absolute => 24
  | .r32Relative | .i32Grid => 12

abbrev Bytes := List UInt8

structure Header where
  pointCount : Nat
  pointFormat : Format
  mortonMin : Nat
  lodSpan : Int
  deriving DecidableEq, Repr

structure Decoder (Origin : Type) where
  headerSize : Nat
  header : Bytes → Header
  origin : Header → Origin
  position : PositionFormat → Header → Bytes → Bytes
  inside : PositionFormat → Origin → Bytes → Bool
  positionLength : ∀ format header code, (position format header code).length = positionStride format

structure RegionNode where
  treeId : Nat
  level : Nat
  index : Nat
  lod : Int
  inputId : InputId
  attributesId : Nat
  offsetInSubset : Nat
  pointCount : Nat
  isLeaf : Bool
  isLod : Bool
  fullyInside : Bool
  deriving DecidableEq, Repr

structure Attribute where
  name : List Char
  format : Format
  deriving DecidableEq, Repr

structure DewError where
  code : Int
  msg : String
  deriving DecidableEq, Repr

-- What a request ends with when it is not completed; `undefined` is an assertion or a read out of bounds.
inductive Stop where
  | canceled
  | failed (error : DewError)
  | cannotDecode (node : RegionNode) (header : Header)
  | undefined
  deriving DecidableEq, Repr

-- The `buffer`-th read of the `walk`-th node: 0 is the positions.
structure Issue where
  walk : Nat
  buffer : Nat
  deriving DecidableEq, Repr

structure Dataset where
  tree : Nat → Option InputStorageMap
  attributesConfigs : List (List Attribute)
  maxReadsInFlight : Nat
  read : Issue → Location → Except DewError Bytes

structure Job where
  attributeNames : List (List Char)
  positionFormat : PositionFormat
  clipPoint : Bool
  wholeDataset : Bool
  -- Looked at where a batch begins.
  canceled : Nat → Bool

structure ResultNode (Origin : Type) where
  node : RegionNode
  firstPoint : Nat
  pointCount : Nat
  positionOffset : Origin

structure Buffer where
  name : List Char
  format : Option Format
  data : Bytes
  deriving DecidableEq, Repr

structure Result (Origin : Type) where
  positions : Buffer
  attributes : List Buffer
  nodes : List (ResultNode Origin)
  pointCount : Nat

def getAttributeIndex (configs : List (List Attribute)) (attributesId : Nat) (name : List Char) :
    Option (Nat × Format) :=
  (configs[attributesId]?.bind fun attributes => attributes.zipIdx.find? fun a => a.1.name = name).map
    fun a => (a.2, a.1.format)

-- The format of the first selected node that has the attribute.
def resolveFormat (ds : Dataset) (nodes : List RegionNode) (name : List Char) : Option Format :=
  nodes.findSome? fun node => (getAttributeIndex ds.attributesConfigs node.attributesId name).map Prod.snd

def stride (format : Option Format) : Nat := (format.map sizeForFormat).getD 0

/-! ## Reading -/

structure Pending where
  node : RegionNode
  position : Except DewError Bytes
  attributes : List (Option (Except DewError Bytes))

def issueAttribute (ds : Dataset) (map : InputStorageMap) (node : RegionNode) (walk : Nat)
    (asked : (List Char × Option Format) × Nat) : Except Stop (Option (Except DewError Bytes)) :=
  if stride asked.1.2 = 0 then .ok none
  else
    match getAttributeIndex ds.attributesConfigs node.attributesId asked.1.1 with
    | none => .ok none
    | some (index, _) =>
      match map.location node.inputId index with
      | none => .error .undefined
      | some location =>
        .ok (if location.size = 0 then none else some (ds.read ⟨walk, asked.2 + 1⟩ location))

def issue (ds : Dataset) (wanted : List (List Char × Option Format)) (node : RegionNode) (walk : Nat) :
    Except Stop (Option Pending) :=
  if node.pointCount = 0 then .ok none
  else
    match ds.tree node.treeId with
    | none => .ok none
    | some map =>
      match map.location node.inputId 0 with
      | none => .error .undefined
      | some location =>
        if location.size = 0 then .ok none
        else
          match wanted.zipIdx.mapM (issueAttribute ds map node walk) with
          | .error stop => .error stop
          | .ok attributes => .ok (some ⟨node, ds.read ⟨walk, 0⟩ location, attributes⟩)

/-! ## Decoding -/

variable {Origin : Type} (dec : Decoder Origin)

def deserializePoints (data : Bytes) : Except DewError (Header × Bytes) :=
  if data.length < dec.headerSize then .error ⟨2, "Invalid input size"⟩
  else .ok (dec.header (data.take dec.headerSize), data.drop dec.headerSize)

-- The `j`-th element of `size` bytes.
def element (size : Nat) (data : Bytes) (j : Nat) : Bytes := (data.drop (j * size)).take size

-- The caller passes the size of the codes as a 32-bit product.
def decodePositions (format : PositionFormat) (header : Header) (points : Bytes) (offset count : Nat) :
    Except Stop (Option (List Bytes)) :=
  let size := sizeForFormat header.pointFormat
  if size = 0 ∨ count * size % 2 ^ 32 < count * size ∨ !isMorton header.pointFormat.type then .ok none
  else if points.length < (offset + count) * size then .error .undefined
  else .ok (some ((List.range count).map fun j => dec.position format header (element size points (offset + j))))

-- An attribute's share of a node: zeros, unless its blob was read and is large enough for this stride.
def stageAttribute (format : Option Format) (source : Option (Except DewError Bytes)) (offset count : Nat) :
    List Bytes :=
  let size := stride format
  match source with
  | some (.ok data) =>
    if (offset + count) * size ≤ data.length then (List.range count).map fun j => element size data (offset + j)
    else List.replicate count (List.replicate size 0)
  | _ => List.replicate count (List.replicate size 0)

def moveSpan (i kept : Nat) (span : Option (List Bytes)) : Option (List Bytes) := span.map (move i kept)

def clipToBox (inside : Bytes → Bool) : Nat → Nat → Nat → List Bytes → List (Option (List Bytes)) →
    Nat × List Bytes × List (Option (List Bytes))
  | 0, _, kept, positions, spans => (kept, positions, spans)
  | left + 1, i, kept, positions, spans =>
    if (positions[i]?.map inside).getD false then
      if kept = i then clipToBox inside left (i + 1) (kept + 1) positions spans
      else clipToBox inside left (i + 1) (kept + 1) (move i kept positions) (spans.map (moveSpan i kept))
    else clipToBox inside left (i + 1) kept positions spans

structure Stage (Origin : Type) where
  node : RegionNode
  kept : Nat
  origin : Origin
  positions : List Bytes
  -- `none` where no node has the attribute.
  attributes : List (Option (List Bytes))

def spanOf (format : Option Format) (source : Option (Except DewError Bytes)) (offset count : Nat) :
    Option (List Bytes) :=
  if stride format = 0 then none else some (stageAttribute format source offset count)

-- `none` is a stage that is not valid: the append passes over it.
def decode (job : Job) (formats : List (Option Format)) (pending : Pending) : Except Stop (Option (Stage Origin)) :=
  match pending.position with
  | .error error => .error (.failed error)
  | .ok data =>
    match deserializePoints dec data with
    | .error error => .error (.failed error)
    | .ok (header, points) =>
      let node := pending.node
      let offset := node.offsetInSubset
      let count := node.pointCount
      if header.pointCount < offset + count then .ok none
      else
        match decodePositions dec job.positionFormat header points offset count with
        | .error stop => .error stop
        | .ok none => .error (.cannotDecode node header)
        | .ok (some positions) =>
          let origin := dec.origin header
          let spans := List.zipWith (fun format source => spanOf format source offset count) formats
            pending.attributes
          if job.clipPoint && !job.wholeDataset && !node.fullyInside then
            let (kept, positions, spans) :=
              clipToBox (dec.inside job.positionFormat origin) count 0 0 positions spans
            .ok (some ⟨node, kept, origin, positions.take kept, spans.map (Option.map (List.take kept))⟩)
          else .ok (some ⟨node, count, origin, positions, spans⟩)

/-! ## The request -/

def appendBuffer (buffer : Buffer) (span : Option (List Bytes)) : Buffer :=
  match span with
  | none => buffer
  | some elements => { buffer with data := buffer.data ++ elements.flatten }

def append (r : Result Origin) (stage : Option (Stage Origin)) : Result Origin :=
  match stage with
  | none => r
  | some s =>
    if s.kept = 0 then r
    else
      { positions := appendBuffer r.positions (some s.positions)
        attributes := List.zipWith appendBuffer r.attributes s.attributes
        nodes := r.nodes ++ [⟨s.node, r.pointCount, s.kept, s.origin⟩]
        pointCount := r.pointCount + s.kept }

def batches {α : Type} (size : Nat) : Nat → List α → List (List α)
  | 0, _ => []
  | fuel + 1, l => if l.isEmpty then [] else l.take size :: batches size fuel (l.drop size)

def batchNodes (ds : Dataset) (attributeCount : Nat) : Nat :=
  max 1 (ds.maxReadsInFlight / max 1 (1 + attributeCount))

def wanted (ds : Dataset) (job : Job) (nodes : List RegionNode) : List (List Char × Option Format) :=
  job.attributeNames.map fun name => (name, resolveFormat ds nodes name)

def decodePending (job : Job) (formats : List (Option Format)) :
    Option Pending → Except Stop (Option (Stage Origin))
  | none => .ok none
  | some pending => decode dec job formats pending

-- Every read of a batch is issued, then every node is decoded, then the stages are appended in walk order.
def runBatch (ds : Dataset) (job : Job) (wanted : List (List Char × Option Format)) (r : Result Origin)
    (batch : List (RegionNode × Nat)) : Except Stop (Result Origin) :=
  if (batch.head?.map fun n => job.canceled n.2).getD false then .error .canceled
  else
    match batch.mapM fun n => issue ds wanted n.1 n.2 with
    | .error stop => .error stop
    | .ok pending =>
      match pending.mapM (decodePending dec job (wanted.map Prod.snd)) with
      | .error stop => .error stop
      | .ok stages => .ok (stages.foldl append r)

def positionsFormat : PositionFormat → Format
  | .r64Absolute => ⟨.r64, 3⟩
  | .r32Relative => ⟨.r32, 3⟩
  | .i32Grid => ⟨.i32, 3⟩

def empty (job : Job) (wanted : List (List Char × Option Format)) : Result Origin where
  positions := ⟨"xyz".toList, some (positionsFormat job.positionFormat), []⟩
  attributes := wanted.map fun a => ⟨a.1, a.2, []⟩
  nodes := []
  pointCount := 0

def runRegionRequest (ds : Dataset) (job : Job) (nodes : List RegionNode) : Except Stop (Result Origin) :=
  let wanted := wanted ds job nodes
  (batches (batchNodes ds wanted.length) nodes.length nodes.zipIdx).foldlM (runBatch dec ds job wanted)
    (empty job wanted)

end Dewfall.RegionRequest
