import Dewfall.Core.Preprocess
import Dewfall.General.Faults

/-! Decompression of untrusted bytes: the header, what stands behind it, the entropy decoders as parameters and the
transforms undone, every access checked against its buffer. Sums of doubles are a parameter. -/
namespace Dewfall.Decompress
open General General.Codec General.Buffers General.Faults WordArithmetic Preprocess

abbrev Decoding (α : Type) := Checked String α

/-! ## The header -/

structure Header where
  magic : Bytes
  method : Nat
  typeSize : Nat
  componentCount : Nat
  flags : Nat
  uncompressedSize : Nat
  compressedSize : Nat

def word (data : Bytes) (position : Nat) : Nat := ofLittleEndian ((data.drop position).take 4)

def readHeader (data : Bytes) : Header :=
  ⟨data.take 4, (data.getD 4 0).toNat, (data.getD 5 0).toNat, (data.getD 6 0).toNat, (data.getD 7 0).toNat,
    word data 8, word data 12⟩

-- The bits of the flags.
def deltaEncoded : Nat := 0
def constantBands : Nat := 1
def offsetSubtracted : Nat := 2
def sortPermutation : Nat := 3
def decorrelated : Nat := 4
def componentDelta : Nat := 5
def elementDelta : Nat := 6

def Header.has (h : Header) (flag : Nat) : Bool := h.flags.testBit flag

def Header.stride (h : Header) : Nat := h.typeSize * h.componentCount

/-! ## What the decoders are -/

-- `decompress src capacity` is the destination as the library leaves it, or the name of its error.
structure Codec where
  decompress : Bytes → Nat → Except String Bytes
  permutationFailed : String
  failed : String

-- A library writes inside the destination it is given.
def Codec.Works (codec : Codec) : Prop := ∀ src capacity out, codec.decompress src capacity = .ok out → out.length = capacity

structure Libraries where
  zstd : Bytes → Nat → Except String Bytes
  fse : Bytes → Nat → Except String Bytes
  huf : Bytes → Nat → Except String Bytes
  addDouble : BitVec 64 → BitVec 64 → BitVec 64

def Libraries.zstdCodec (libs : Libraries) : Codec :=
  ⟨libs.zstd, "ZSTD permutation decompress failed: ", "ZSTD_decompress failed: "⟩

def Libraries.ansCodec (libs : Libraries) : Codec :=
  ⟨libs.fse, "ANS permutation decompress failed: FSE_decompress_wksp_bmi2 failed: ", "FSE_decompress_wksp_bmi2 failed: "⟩

def Libraries.hufCodec (libs : Libraries) : Codec := ⟨libs.huf, "", "HUF_decompress4X_hufOnly_wksp failed: "⟩

def run (decompress : Bytes → Nat → Except String Bytes) (failed : String) (src : Bytes) (capacity : Nat) : Decoding Bytes :=
  match decompress src capacity with
  | .ok out => .ok out
  | .error name => .error (.error (failed ++ name))

/-! ## What stands behind the header -/

def readOffset (h : Header) (data : Bytes) (position : Nat) : Decoding (BitVec 64 × Nat) :=
  if h.has offsetSubtracted then do
    let bytes ← readAt data position 8
    pure (u64 bytes 0, 8)
  else pure (0, 0)

def permutationCount (h : Header) : Nat := h.uncompressedSize / 8
def permutationWidth (h : Header) : Nat := if 65535 < permutationCount h then 4 else 2

def readPermutation (codec : Codec) (h : Header) (data : Bytes) (position : Nat) : Decoding (List Nat × Nat) :=
  if h.has sortPermutation then do
    let size ← readAt data position 4
    within (4 + ofLittleEndian size < 2 ^ 32)
    let src ← readAt data (position + 4) (ofLittleEndian size)
    let out ← run codec.decompress codec.permutationFailed src (permutationCount h * permutationWidth h)
    pure ((List.range (permutationCount h)).map fun i => ofLittleEndian (Buffers.block (permutationWidth h) out i),
      4 + ofLittleEndian size)
  else pure ([], 0)

def readDataOffset (h : Header) (data : Bytes) (position : Nat) : Decoding (Nat × Nat) :=
  if h.has deltaEncoded then do
    let bytes ← readAt data position 4
    pure (ofLittleEndian bytes, 4)
  else pure (0, 0)

def popcount (mask : BitVec 32) : Nat := (List.range 32).countP (hasBand mask)

structure Bands where
  mask : BitVec 32
  constantValues : Bytes
  size : Nat

def readBands (h : Header) (data : Bytes) (position : Nat) : Decoding Bands :=
  if h.has constantBands then do
    let bytes ← readAt data position 4
    let mask := BitVec.ofNat 32 (ofLittleEndian bytes)
    let values ← readAt data (position + 4) (popcount mask)
    pure ⟨mask, values, 4 + popcount mask⟩
  else pure ⟨0, [], 0⟩

def compactedSize (h : Header) (mask : BitVec 32) : Decoding Nat :=
  if mask ≠ 0 ∧ 0 < h.stride then do
    let nonConstant ← difference h.stride (popcount mask)
    pure (nonConstant * (h.uncompressedSize / h.stride) + h.uncompressedSize % h.stride)
  else pure h.uncompressedSize

/-! ## The transforms undone -/

-- One band: the shift is by less than 32, and what is read and written lies in the buffers.
def restoreNext (elementCount : Nat) (compacted : Bytes) (mask : BitVec 32) (constantValues : Bytes) (s : Restoring)
    (b : Nat) : Decoding Restoring := do
  within (b < 32 ∧ (b + 1) * elementCount ≤ s.shuffled.length)
  within (if hasBand mask b then s.constIdx < constantValues.length else s.srcOffset + elementCount ≤ compacted.length)
  pure (restoreBand elementCount compacted mask constantValues s b)

def restoreConstant (h : Header) (compacted shuffled : Bytes) (mask : BitVec 32) (constantValues : Bytes) : Decoding Bytes :=
  if h.stride = 0 ∨ shuffled.length = 0 then pure shuffled
  else do
    let elementCount := shuffled.length / h.stride
    let remainder := shuffled.length % h.stride
    let restored ← (List.range h.stride).foldlM (restoreNext elementCount compacted mask constantValues) ⟨shuffled, 0, 0⟩
    if 0 < remainder then do
      let rest ← readAt compacted restored.srcOffset remainder
      writeAt restored.shuffled (h.stride * elementCount) rest
    else pure restored.shuffled

def restoreShuffled (h : Header) (bands : Bands) (compacted : Bytes) : Decoding Bytes :=
  if bands.mask ≠ 0 then
    restoreConstant h compacted (List.replicate h.uncompressedSize 0) bands.mask bands.constantValues
  else readAt compacted 0 h.uncompressedSize

def unshuffle (h : Header) (shuffled : Bytes) : Decoding Bytes := do
  within (∀ m ∈ shuffleMoves shuffled.length h.typeSize h.componentCount, m.1 < shuffled.length ∧ m.2 < h.uncompressedSize)
  pure (byteUnshuffle shuffled (List.replicate h.uncompressedSize 0) h.typeSize h.componentCount)

-- A pass over the whole elements of a buffer.
def inPlace (size : Nat) (pass : Bytes → Bytes) (output : Bytes) : Decoding Bytes := do
  within (output.length / size * size ≤ output.length)
  pure (pass output)

-- No element size is zero: the count is a division by it.
def decodeSingle (h : Header) (output : Bytes) : Decoding Bytes :=
  match deltaDecodeSingle output h.typeSize with
  | some decoded => pure decoded
  | none => .error .fault

def decodeMorton (output : Bytes) (dataOffset stride : Nat) : Decoding Bytes := do
  let dataBytes ← difference output.length dataOffset
  let data ← readAt output dataOffset dataBytes
  let decoded ← inPlace stride (deltaDecodeMorton · stride) data
  writeAt output dataOffset decoded

def offsetRestore (addDouble : BitVec 64 → BitVec 64 → BitVec 64) (minimum : BitVec 64) (output : Bytes) : Bytes :=
  (List.range (output.length / 8)).foldl (mapStep 8 fun element => put (addDouble (u64 element 0) minimum)) output

def undoElementDelta (h : Header) (output : Bytes) : Decoding Bytes :=
  if h.has elementDelta then decodeSingle h output else pure output

def undoComponentDelta (h : Header) (output : Bytes) : Decoding Bytes :=
  if h.has componentDelta then inPlace 6 deltaDecodeU16x3 output else pure output

def undoDecorrelation (h : Header) (output : Bytes) : Decoding Bytes :=
  if h.has decorrelated then inPlace 6 correlateU16x3 output else pure output

-- With a permutation the whole buffer is one run of doubles.
def undoDelta (h : Header) (permuted : Bool) (dataOffset : Nat) (output : Bytes) : Decoding Bytes :=
  if h.has deltaEncoded then
    if permuted then inPlace 8 (deltaDecodeMorton · 8) output else decodeMorton output dataOffset (h.stride % 256)
  else pure output

def undoPermutation (permuted : Bool) (permutation : List Nat) (output : Bytes) : Decoding Bytes :=
  if permuted then do
    within (output.length / 8 ≤ permutation.length)
    inPlace 8 (unsortWithPermutation · permutation) output
  else pure output

def undoOffset (libs : Libraries) (h : Header) (minimum : BitVec 64) (output : Bytes) : Decoding Bytes :=
  if h.has offsetSubtracted then inPlace 8 (offsetRestore libs.addDouble minimum) output else pure output

structure Metadata where
  offsetMinValue : BitVec 64
  permutation : List Nat
  dataOffset : Nat
  bands : Bands

-- huff0 knows no permutation.
def undo (libs : Libraries) (h : Header) (permuted : Bool) (m : Metadata) (compacted : Bytes) : Decoding (Bytes × Nat) := do
  let shuffled ← restoreShuffled h m.bands compacted
  let output ← unshuffle h shuffled
  let output ← undoElementDelta h output
  let output ← undoComponentDelta h output
  let output ← undoDecorrelation h output
  let output ← undoDelta h permuted m.dataOffset output
  let output ← undoPermutation permuted m.permutation output
  let output ← undoOffset libs h m.offsetMinValue output
  pure (output, h.uncompressedSize)

/-! ## The three containers -/

def decompressNone (h : Header) (data : Bytes) : Decoding (Bytes × Nat) := do
  let bytes ← readAt data 16 h.uncompressedSize
  pure (bytes, h.uncompressedSize)

def decompressStandard (libs : Libraries) (codec : Codec) (h : Header) (data : Bytes) : Decoding (Bytes × Nat) := do
  let offset ← readOffset h data 16
  let permutation ← readPermutation codec h data (16 + offset.2)
  let delta ← readDataOffset h data (16 + offset.2 + permutation.2)
  let bands ← readBands h data (16 + offset.2 + permutation.2 + delta.2)
  let left ← difference h.compressedSize offset.2
  let left ← difference left permutation.2
  let left ← difference left delta.2
  let payloadSize ← difference left bands.size
  let size ← compactedSize h bands.mask
  let src ← readAt data (16 + offset.2 + permutation.2 + delta.2 + bands.size) payloadSize
  let compacted ← run codec.decompress codec.failed src size
  undo libs h (h.has sortPermutation) ⟨offset.1, permutation.1, delta.1, bands⟩ compacted

def decompressChunk (codec : Codec) (data : Bytes) (position uncompressed compressed : Nat) : Decoding Bytes :=
  if compressed = uncompressed then readAt data position uncompressed
  else if compressed = 1 ∧ 1 < uncompressed then do
    let byte ← readAt data position 1
    pure (List.replicate uncompressed (byte.getD 0 0))
  else do
    let src ← readAt data position compressed
    run codec.decompress codec.failed src uncompressed

-- The destination of a chunk is inside the buffer before the library is given it.
def decompressChunks (codec : Codec) (data : Bytes) : Nat → Nat → Nat → Bytes → Decoding Bytes
  | 0, _, _, compacted => pure compacted
  | chunks + 1, position, written, compacted => do
    let uncompressed ← readAt data position 4
    let compressed ← readAt data (position + 4) 4
    within (written + ofLittleEndian uncompressed ≤ compacted.length)
    let chunk ← decompressChunk codec data (position + 8) (ofLittleEndian uncompressed) (ofLittleEndian compressed)
    let compacted ← writeAt compacted written chunk
    decompressChunks codec data chunks (position + 8 + ofLittleEndian compressed) (written + ofLittleEndian uncompressed) compacted

def decompressHuff0 (libs : Libraries) (h : Header) (data : Bytes) : Decoding (Bytes × Nat) := do
  let offset ← readOffset h data 16
  let delta ← readDataOffset h data (16 + offset.2)
  let bands ← readBands h data (16 + offset.2 + delta.2)
  let chunks ← readAt data (16 + offset.2 + delta.2 + bands.size) 4
  let size ← compactedSize h bands.mask
  let compacted ← decompressChunks libs.hufCodec data (ofLittleEndian chunks) (16 + offset.2 + delta.2 + bands.size + 4) 0
    (List.replicate size 0)
  undo libs h false ⟨offset.1, [], delta.1, bands⟩ compacted

/-! ## decompress_any -/

-- The loop of `constant`: nothing but the wrap of `offset + element_size` could keep it from ending.
def fillConstant (data : Bytes) (elementSize uncompressedSize : Nat) : Nat → Nat → Bytes → Decoding Bytes
  | 0, _, _ => .error .fault
  | fuel + 1, offset, output => do
    within (offset + elementSize < 2 ^ 32)
    if offset + elementSize ≤ uncompressedSize then do
      let element ← readAt data 16 elementSize
      let output ← writeAt output offset element
      fillConstant data elementSize uncompressedSize fuel (offset + elementSize) output
    else pure output

def decompressConstant (h : Header) (data : Bytes) : Decoding (Bytes × Nat) :=
  if h.stride = 0 ∨ h.compressedSize ≠ h.stride then .error (.error "Invalid constant compression payload")
  else do
    let output ← fillConstant data h.stride h.uncompressedSize (h.uncompressedSize + 1) 0 (List.replicate h.uncompressedSize 0)
    pure (output, h.uncompressedSize)

-- 'P', 'C', 'M', 1
def magic : Bytes := [80, 67, 77, 1]

def decompressAny (libs : Libraries) (data : Bytes) : Decoding (Bytes × Nat) :=
  if data.length < 16 then .error (.error "Buffer too small for compression header")
  else if (readHeader data).magic ≠ magic then .error (.error "Invalid compression magic")
  else match (readHeader data).method with
    | 0 => decompressNone (readHeader data) data
    | 2 => decompressStandard libs libs.zstdCodec (readHeader data) data
    | 3 => decompressHuff0 libs (readHeader data) data
    | 4 => decompressConstant (readHeader data) data
    | 5 => decompressStandard libs libs.ansCodec (readHeader data) data
    | _ => .error (.error "Unknown compression method")

end Dewfall.Decompress
