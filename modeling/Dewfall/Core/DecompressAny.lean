import Dewfall.Core.DecompressSafe

/-! The bytes that `decompress_any` takes without a fault: for each container the inequalities between the sizes it
announces and the sizes there are. What a library turns down ends in an error and asks for nothing more. -/
namespace Dewfall.Decompress
open General General.Codec General.Buffers General.Faults WordArithmetic Preprocess

/-! ## What stands behind the header -/

section
variable {codec : Codec} {h : Header} {data : Bytes} {position : Nat}

theorem yieldsRun {decompress : Bytes → Nat → Except String Bytes} {failed : String} {src : Bytes} {capacity : Nat}
    {post : Bytes → Prop} : Yields (run decompress failed src capacity) post ↔
      ∀ out, decompress src capacity = .ok out → post out := by
  unfold run
  cases decompress src capacity with
  | ok out => exact ⟨fun holds _ same => Except.ok.inj same ▸ holds, fun all => all out rfl⟩
  | error name => exact ⟨fun _ _ same => (nomatch same), fun _ => trivial⟩

def offsetSize (h : Header) : Nat := if h.has offsetSubtracted then 8 else 0

theorem yieldsReadOffset {post : BitVec 64 × Nat → Prop} {rest : Prop} (same : ∀ value, post (value, offsetSize h) ↔ rest) :
    Yields (readOffset h data position) post ↔ (h.has offsetSubtracted = true → position + 8 ≤ data.length) ∧ rest := by
  unfold readOffset
  unfold offsetSize at same
  by_cases set_ : h.has offsetSubtracted = true
  · rw [if_pos set_] at same ⊢
    rw [yieldsBind, yieldsReadAt, yieldsPure, same]
    exact ⟨fun ⟨room, holds⟩ => ⟨fun _ => room, holds⟩, fun ⟨room, holds⟩ => ⟨room set_, holds⟩⟩
  · rw [if_neg set_] at same ⊢
    rw [yieldsPure, same]
    exact ⟨fun holds => ⟨fun here => absurd here set_, holds⟩, And.right⟩

def permutationSize (h : Header) (data : Bytes) (position : Nat) : Nat :=
  if h.has sortPermutation then 4 + word data position else 0

def PermutationTaken (codec : Codec) (h : Header) (data : Bytes) (position : Nat) : Prop :=
  h.has sortPermutation = true → ∃ out, codec.decompress ((data.drop (position + 4)).take (word data position))
    (permutationCount h * permutationWidth h) = .ok out

theorem yieldsReadPermutation (small : data.length < 2 ^ 32) {post : List Nat × Nat → Prop} {rest : Prop}
    (same : ∀ permutation : List Nat, (h.has sortPermutation = true → permutation.length = permutationCount h) →
      (post (permutation, permutationSize h data position) ↔ rest)) :
    Yields (readPermutation codec h data position) post ↔
      (h.has sortPermutation = true → position + permutationSize h data position ≤ data.length) ∧
        (PermutationTaken codec h data position → rest) := by
  unfold readPermutation PermutationTaken
  unfold permutationSize at same ⊢
  by_cases set_ : h.has sortPermutation = true
  · rw [if_pos set_] at same ⊢
    rw [if_pos set_, yieldsBind, yieldsReadAt, yieldsBind, yieldsWithin, yieldsBind, yieldsReadAt, yieldsBind, yieldsRun]
    change (_ ∧ 4 + word data position < 2 ^ 32 ∧ position + 4 + word data position ≤ data.length ∧ _) ↔ _
    constructor
    · rintro ⟨_, _, room, all⟩
      refine ⟨fun _ => by omega, fun taken => ?_⟩
      obtain ⟨out, ran⟩ := taken set_
      exact (same _ fun _ => (List.length_map _).trans List.length_range).mp (all out ran)
    · rintro ⟨room, holds⟩
      have inside := room set_
      refine ⟨by omega, by omega, by omega, fun out ran => ?_⟩
      exact (same _ fun _ => (List.length_map _).trans List.length_range).mpr (holds fun _ => ⟨out, ran⟩)
  · rw [if_neg set_] at same ⊢
    rw [if_neg set_, yieldsPure, same [] fun here => absurd here set_]
    exact ⟨fun holds => ⟨fun here => absurd here set_, fun _ => holds⟩, fun holds => holds.2 fun here => absurd here set_⟩

def deltaSize (h : Header) : Nat := if h.has deltaEncoded then 4 else 0

theorem yieldsReadDataOffset {post : Nat × Nat → Prop} :
    Yields (readDataOffset h data position) post ↔ (h.has deltaEncoded = true → position + deltaSize h ≤ data.length) ∧
      post (if h.has deltaEncoded then word data position else 0, deltaSize h) := by
  unfold readDataOffset deltaSize
  by_cases set_ : h.has deltaEncoded = true
  · rw [if_pos set_, if_pos set_, if_pos set_, yieldsBind, yieldsReadAt, yieldsPure]
    exact ⟨fun ⟨room, holds⟩ => ⟨fun _ => room, holds⟩, fun ⟨room, holds⟩ => ⟨room set_, holds⟩⟩
  · rw [if_neg set_, if_neg set_, if_neg set_, yieldsPure]
    exact ⟨fun holds => ⟨fun here => absurd here set_, holds⟩, And.right⟩

def bandsOf (h : Header) (data : Bytes) (position : Nat) : Bands :=
  if h.has constantBands then
    ⟨BitVec.ofNat 32 (word data position),
      (data.drop (position + 4)).take (popcount (BitVec.ofNat 32 (word data position))),
      4 + popcount (BitVec.ofNat 32 (word data position))⟩
  else ⟨0, [], 0⟩

theorem yieldsReadBands {post : Bands → Prop} : Yields (readBands h data position) post ↔
    (h.has constantBands = true → position + (bandsOf h data position).size ≤ data.length) ∧ post (bandsOf h data position) := by
  unfold readBands bandsOf
  by_cases set_ : h.has constantBands = true
  · rw [if_pos set_, if_pos set_, yieldsBind, yieldsReadAt, yieldsBind, yieldsReadAt, yieldsPure]
    change (_ ∧ position + 4 + popcount (BitVec.ofNat 32 (word data position)) ≤ data.length ∧ _) ↔ _
    constructor
    · rintro ⟨_, room, holds⟩
      exact ⟨fun _ => by dsimp only; omega, holds⟩
    · rintro ⟨room, holds⟩
      have inside := room set_
      dsimp only at inside
      exact ⟨by omega, by omega, holds⟩
  · rw [if_neg set_, if_neg set_, yieldsPure]
    exact ⟨fun holds => ⟨fun here => absurd here set_, holds⟩, And.right⟩

theorem bandsValues (room : h.has constantBands = true → position + (bandsOf h data position).size ≤ data.length) :
    (bandsOf h data position).constantValues.length = popcount (bandsOf h data position).mask := by
  unfold bandsOf at room ⊢
  by_cases set_ : h.has constantBands = true
  · rw [if_pos set_] at room ⊢
    have inside := room set_
    dsimp only at inside ⊢
    rw [List.length_take, List.length_drop]
    omega
  · rw [if_neg set_]
    rfl

end


/-! ## zstd and ans -/

def Taken (codec : Codec) (src : Bytes) (capacity : Nat) : Prop := ∃ out, codec.decompress src capacity = .ok out

def bandsPosition (h : Header) (data : Bytes) : Nat :=
  16 + offsetSize h + permutationSize h data (16 + offsetSize h) + deltaSize h

def standardBands (h : Header) (data : Bytes) : Bands := bandsOf h data (bandsPosition h data)

def standardDataOffset (h : Header) (data : Bytes) : Nat :=
  if h.has deltaEncoded then word data (16 + offsetSize h + permutationSize h data (16 + offsetSize h)) else 0

-- Behind the header stand the metadata and then the payload, in as many bytes as the header says.
def payloadPosition (h : Header) (data : Bytes) : Nat := bandsPosition h data + (standardBands h data).size

def payload (h : Header) (data : Bytes) : Bytes :=
  (data.drop (payloadPosition h data)).take (16 + h.compressedSize - payloadPosition h data)

def StandardFits (codec : Codec) (h : Header) (data : Bytes) : Prop :=
  (h.has offsetSubtracted = true → 16 + 8 ≤ data.length) ∧
  (h.has sortPermutation = true → 16 + offsetSize h + permutationSize h data (16 + offsetSize h) ≤ data.length) ∧
  (PermutationTaken codec h data (16 + offsetSize h) →
    payloadPosition h data ≤ 16 + h.compressedSize ∧ 16 + h.compressedSize ≤ data.length ∧
    BandsFit h (standardBands h data).mask ∧
    (Taken codec (payload h data) (compactedOf h (standardBands h data).mask) →
      TransformsFit h (h.has sortPermutation) (standardBands h data).mask (standardDataOffset h data)))

theorem yieldsStandard {libs : Libraries} {codec : Codec} (works : codec.Works) {h : Header} {data : Bytes}
    (small : data.length < 2 ^ 32) :
    Yields (decompressStandard libs codec h data) (fun r => r.1.length = r.2) ↔ StandardFits codec h data := by
  unfold decompressStandard StandardFits
  rw [yieldsBind]
  refine yieldsReadOffset fun value => ?_
  rw [yieldsBind]
  refine yieldsReadPermutation small fun permutation sized => ?_
  rw [yieldsBind, yieldsReadDataOffset, yieldsBind, yieldsReadBands, yieldsBind, yieldsDifference, yieldsBind,
    yieldsDifference, yieldsBind, yieldsDifference, yieldsBind, yieldsDifference, yieldsBind, yieldsCompactedSize,
    yieldsBind, yieldsReadAt, yieldsBind, yieldsRun]
  dsimp only
  change ((_ → 16 + offsetSize h + permutationSize h data (16 + offsetSize h) + deltaSize h ≤ data.length) ∧
    (_ → bandsPosition h data + (standardBands h data).size ≤ data.length) ∧ offsetSize h ≤ h.compressedSize ∧
    permutationSize h data (16 + offsetSize h) ≤ h.compressedSize - offsetSize h ∧
    deltaSize h ≤ h.compressedSize - offsetSize h - permutationSize h data (16 + offsetSize h) ∧
    (standardBands h data).size ≤
      h.compressedSize - offsetSize h - permutationSize h data (16 + offsetSize h) - deltaSize h ∧
    BandsFit h (standardBands h data).mask ∧
    bandsPosition h data + (standardBands h data).size + (h.compressedSize - offsetSize h -
      permutationSize h data (16 + offsetSize h) - deltaSize h - (standardBands h data).size) ≤ data.length ∧
    ∀ out, codec.decompress ((data.drop (bandsPosition h data + (standardBands h data).size)).take (h.compressedSize -
      offsetSize h - permutationSize h data (16 + offsetSize h) - deltaSize h - (standardBands h data).size))
      (compactedOf h (standardBands h data).mask) = .ok out →
      Yields (undo libs h (h.has sortPermutation) ⟨value, permutation, standardDataOffset h data, standardBands h data⟩ out)
        fun r => r.1.length = r.2) ↔ _
  have start : bandsPosition h data = 16 + offsetSize h + permutationSize h data (16 + offsetSize h) + deltaSize h := rfl
  have left : 16 + h.compressedSize - payloadPosition h data = h.compressedSize - offsetSize h -
      permutationSize h data (16 + offsetSize h) - deltaSize h - (standardBands h data).size := by
    unfold payloadPosition
    omega
  unfold payload Taken
  rw [left]
  unfold payloadPosition
  constructor
  · rintro ⟨_, roomBands, first, second, third, fourth, few, room, all⟩
    refine ⟨by omega, by omega, few, fun ⟨out, ran⟩ => ?_⟩
    exact (yieldsUndo (bandsValues roomBands) few (works _ _ _ ran) sized).mp (all out ran)
  · rintro ⟨metadata, inside, few, holds⟩
    have roomBands : h.has constantBands = true → bandsPosition h data + (standardBands h data).size ≤ data.length :=
      fun _ => by omega
    refine ⟨fun _ => by omega, roomBands, by omega, by omega, by omega, by omega, few, by omega, fun out ran => ?_⟩
    exact (yieldsUndo (bandsValues roomBands) few (works _ _ _ ran) sized).mpr (holds ⟨out, ran⟩)

/-! ## huff0 -/

def ChunkTaken (codec : Codec) (data : Bytes) (position uncompressed compressed : Nat) : Prop :=
  compressed = uncompressed ∨ compressed = 1 ∧ 1 < uncompressed ∨
    Taken codec ((data.drop position).take compressed) uncompressed

-- Every chunk lies in the bytes and its destination in the buffer, until the library turns one down.
def ChunksFit (codec : Codec) (data : Bytes) (size : Nat) (rest : Prop) : Nat → Nat → Nat → Prop
  | 0, _, _ => rest
  | chunks + 1, position, written =>
    position + 8 + word data (position + 4) ≤ data.length ∧ written + word data position ≤ size ∧
      (ChunkTaken codec data (position + 8) (word data position) (word data (position + 4)) →
        ChunksFit codec data size rest chunks (position + 8 + word data (position + 4)) (written + word data position))

theorem yieldsChunk {codec : Codec} (works : codec.Works) {data : Bytes} {position uncompressed compressed : Nat}
    {post : Bytes → Prop} {rest : Prop} (same : ∀ chunk : Bytes, chunk.length = uncompressed → (post chunk ↔ rest)) :
    Yields (decompressChunk codec data position uncompressed compressed) post ↔ position + compressed ≤ data.length ∧
      (ChunkTaken codec data position uncompressed compressed → rest) := by
  unfold decompressChunk ChunkTaken
  by_cases raw : compressed = uncompressed
  · subst raw
    rw [if_pos rfl, yieldsReadAt]
    refine and_congr_right fun room => ?_
    rw [same _ (by rw [List.length_take, List.length_drop]; omega)]
    exact ⟨fun holds _ => holds, fun holds => holds (.inl rfl)⟩
  · rw [if_neg raw]
    by_cases run_ : compressed = 1 ∧ 1 < uncompressed
    · rw [if_pos run_, yieldsBind, yieldsReadAt, yieldsPure, same _ List.length_replicate, run_.1]
      exact and_congr_right fun _ => ⟨fun holds _ => holds, fun holds => holds (.inr (.inl ⟨rfl, run_.2⟩))⟩
    · rw [if_neg run_, yieldsBind, yieldsReadAt, yieldsRun]
      refine and_congr_right fun _ => ⟨fun all taken => ?_, fun holds out ran => ?_⟩
      · obtain ⟨out, ran⟩ := (taken.resolve_left raw).resolve_left run_
        exact (same _ (works _ _ _ ran)).mp (all out ran)
      · exact (same _ (works _ _ _ ran)).mpr (holds (.inr (.inr ⟨out, ran⟩)))

theorem yieldsChunks {codec : Codec} (works : codec.Works) {data : Bytes} {size : Nat} {post : Bytes → Prop} {rest : Prop}
    (same : ∀ r : Bytes, r.length = size → (post r ↔ rest)) (chunks position written : Nat) {compacted : Bytes}
    (whole : compacted.length = size) :
    Yields (decompressChunks codec data chunks position written compacted) post ↔
      ChunksFit codec data size rest chunks position written := by
  induction chunks generalizing position written compacted with
  | zero => exact same compacted whole
  | succ chunks ih =>
    unfold decompressChunks ChunksFit
    rw [yieldsBind, yieldsReadAt, yieldsBind, yieldsReadAt, yieldsBind, yieldsWithin, yieldsBind]
    change (_ ∧ _ ∧ written + word data position ≤ compacted.length ∧
      Yields (decompressChunk codec data (position + 8) (word data position) (word data (position + 4))) _) ↔ _
    rw [whole]
    have chunk : written + word data position ≤ size → (Yields
        (decompressChunk codec data (position + 8) (word data position) (word data (position + 4)))
        (fun chunk => Yields (writeAt compacted written chunk >>= fun compacted =>
          decompressChunks codec data chunks (position + 8 + word data (position + 4)) (written + word data position) compacted)
          post) ↔ position + 8 + word data (position + 4) ≤ data.length ∧
        (ChunkTaken codec data (position + 8) (word data position) (word data (position + 4)) →
          ChunksFit codec data size rest chunks (position + 8 + word data (position + 4)) (written + word data position))) := by
      intro inside
      refine yieldsChunk works fun chunk length => ?_
      have room : written + chunk.length ≤ compacted.length := by rw [length, whole]; exact inside
      rw [yieldsBind, yieldsWriteAt, ih _ _ ((writtenLength room).trans whole)]
      exact ⟨And.right, fun holds => ⟨room, holds⟩⟩
    constructor
    · rintro ⟨_, _, inside, ran⟩
      obtain ⟨room, later⟩ := (chunk inside).mp ran
      exact ⟨room, inside, later⟩
    · rintro ⟨room, inside, later⟩
      exact ⟨by omega, by omega, inside, (chunk inside).mpr ⟨room, later⟩⟩

def huffPosition (h : Header) : Nat := 16 + offsetSize h + deltaSize h

def huffBands (h : Header) (data : Bytes) : Bands := bandsOf h data (huffPosition h)

def huffDataOffset (h : Header) (data : Bytes) : Nat := if h.has deltaEncoded then word data (16 + offsetSize h) else 0

def chunksPosition (h : Header) (data : Bytes) : Nat := huffPosition h + (huffBands h data).size

def Huff0Fits (codec : Codec) (h : Header) (data : Bytes) : Prop :=
  chunksPosition h data + 4 ≤ data.length ∧ BandsFit h (huffBands h data).mask ∧
    ChunksFit codec data (compactedOf h (huffBands h data).mask)
      (TransformsFit h false (huffBands h data).mask (huffDataOffset h data))
      (word data (chunksPosition h data)) (chunksPosition h data + 4) 0

theorem yieldsHuff0 {libs : Libraries} (works : libs.hufCodec.Works) {h : Header} {data : Bytes} :
    Yields (decompressHuff0 libs h data) (fun r => r.1.length = r.2) ↔ Huff0Fits libs.hufCodec h data := by
  unfold decompressHuff0 Huff0Fits
  rw [yieldsBind]
  have inner : ∀ value : BitVec 64, Yields (readDataOffset h data (16 + offsetSize h) >>= fun delta =>
      readBands h data (16 + offsetSize h + delta.2) >>= fun bands =>
      readAt data (16 + offsetSize h + delta.2 + bands.size) 4 >>= fun chunks =>
      compactedSize h bands.mask >>= fun size =>
      decompressChunks libs.hufCodec data (ofLittleEndian chunks) (16 + offsetSize h + delta.2 + bands.size + 4) 0
        (List.replicate size 0) >>= fun compacted =>
      undo libs h false ⟨value, [], delta.1, bands⟩ compacted) (fun r => r.1.length = r.2) ↔ Huff0Fits libs.hufCodec h data := by
    intro value
    rw [yieldsBind, yieldsReadDataOffset, yieldsBind, yieldsReadBands, yieldsBind, yieldsReadAt, yieldsBind,
      yieldsCompactedSize, yieldsBind]
    dsimp only
    change ((_ → 16 + offsetSize h + deltaSize h ≤ data.length) ∧
      (_ → huffPosition h + (huffBands h data).size ≤ data.length) ∧ chunksPosition h data + 4 ≤ data.length ∧
      BandsFit h (huffBands h data).mask ∧ Yields (decompressChunks libs.hufCodec data (word data (chunksPosition h data))
        (chunksPosition h data + 4) 0 (List.replicate (compactedOf h (huffBands h data).mask) 0)) _) ↔ _
    have bands : chunksPosition h data = huffPosition h + (huffBands h data).size := rfl
    have start : huffPosition h = 16 + offsetSize h + deltaSize h := rfl
    unfold Huff0Fits
    constructor
    · rintro ⟨_, roomBands, room, few, ran⟩
      refine ⟨room, few, (yieldsChunks works (fun r whole => ?_) _ _ _ List.length_replicate).mp ran⟩
      exact yieldsUndo (bandsValues roomBands) few whole fun permuted => (nomatch permuted)
    · rintro ⟨room, few, fits⟩
      have roomBands : h.has constantBands = true → huffPosition h + (huffBands h data).size ≤ data.length := fun _ => by omega
      refine ⟨fun _ => by omega, roomBands, room, few,
        (yieldsChunks works (fun r whole => ?_) _ _ _ List.length_replicate).mpr fits⟩
      exact yieldsUndo (bandsValues roomBands) few whole fun permuted => (nomatch permuted)
  refine (yieldsReadOffset inner).trans ⟨And.right, fun fits => ⟨fun set_ => ?_, fits⟩⟩
  have room := fits.1
  unfold chunksPosition huffPosition offsetSize at room
  rw [if_pos set_] at room
  omega

/-! ## constant -/

-- One element is copied until the next would not fit; the test behind the last one must not wrap.
theorem yieldsFill {data : Bytes} {elementSize size : Nat} (some_ : 0 < elementSize) (fuel offset : Nat) {output : Bytes}
    (whole : output.length = size) (inside : offset ≤ size) (enough : size - offset < fuel) :
    Yields (fillConstant data elementSize size fuel offset output) (fun r => r.length = size) ↔
      (offset + elementSize ≤ size → 16 + elementSize ≤ data.length) ∧
        offset + (size - offset) / elementSize * elementSize + elementSize < 2 ^ 32 := by
  induction fuel generalizing offset output with
  | zero => exact absurd enough (Nat.not_lt_zero _)
  | succ fuel ih =>
    unfold fillConstant
    rw [yieldsBind, yieldsWithin]
    by_cases more : offset + elementSize ≤ size
    · have count : (size - offset) / elementSize = (size - (offset + elementSize)) / elementSize + 1 := by
        rw [Nat.div_eq_sub_div some_ (by omega), Nat.sub_sub]
      rw [if_pos more, yieldsBind, yieldsReadAt, yieldsBind, yieldsWriteAt, count, Nat.succ_mul]
      have element : 16 + elementSize ≤ data.length → ((data.drop 16).take elementSize).length = elementSize := fun room => by
        rw [List.length_take, List.length_drop]
        omega
      have written : 16 + elementSize ≤ data.length →
          offset + ((data.drop 16).take elementSize).length ≤ output.length := fun room => by
        rw [element room, whole]
        exact more
      constructor
      · rintro ⟨_, room, fits, later⟩
        have next := (ih (offset + elementSize) ((writtenLength fits).trans whole) more (by omega)).mp later
        exact ⟨fun _ => room, by omega⟩
      · rintro ⟨room, small⟩
        refine ⟨by omega, room more, written (room more), ?_⟩
        exact (ih (offset + elementSize) ((writtenLength (written (room more))).trans whole) more (by omega)).mpr
          ⟨fun _ => room more, by omega⟩
    · have none_ : (size - offset) / elementSize = 0 := Nat.div_eq_of_lt (by omega)
      rw [if_neg more, yieldsPure, none_, Nat.zero_mul, Nat.add_zero]
      exact ⟨fun ⟨small, _⟩ => ⟨fun fits => absurd fits more, small⟩, fun ⟨_, small⟩ => ⟨small, whole⟩⟩

def ConstantFits (h : Header) (data : Bytes) : Prop := h.stride ≠ 0 → h.compressedSize = h.stride →
  (h.stride ≤ h.uncompressedSize → 16 + h.stride ≤ data.length) ∧
    h.uncompressedSize / h.stride * h.stride + h.stride < 2 ^ 32

theorem yieldsConstant {h : Header} {data : Bytes} :
    Yields (decompressConstant h data) (fun r => r.1.length = r.2) ↔ ConstantFits h data := by
  unfold decompressConstant ConstantFits
  by_cases refused : h.stride = 0 ∨ h.compressedSize ≠ h.stride
  · rw [if_pos refused]
    exact ⟨fun _ some_ same => absurd refused (by rw [not_or, not_not]; exact ⟨some_, same⟩), fun _ => trivial⟩
  · rw [if_neg refused, yieldsBind]
    rw [not_or, not_not] at refused
    have filled := @yieldsFill data h.stride h.uncompressedSize (Nat.pos_of_ne_zero refused.1) (h.uncompressedSize + 1) 0
      (List.replicate h.uncompressedSize 0) List.length_replicate (Nat.zero_le _) (by omega)
    rw [Nat.zero_add, Nat.zero_add, Nat.sub_zero] at filled
    exact filled.trans ⟨fun holds _ _ => holds, fun holds => holds refused.1 refused.2⟩

/-! ## decompress_any -/

structure Libraries.Work (libs : Libraries) : Prop where
  zstd : libs.zstdCodec.Works
  ans : libs.ansCodec.Works
  huf : libs.hufCodec.Works

def DecodesWhen (libs : Libraries) (data : Bytes) : Prop :=
  16 ≤ data.length → (readHeader data).magic = magic →
    match (readHeader data).method with
    | 0 => 16 + (readHeader data).uncompressedSize ≤ data.length
    | 2 => StandardFits libs.zstdCodec (readHeader data) data
    | 3 => Huff0Fits libs.hufCodec (readHeader data) data
    | 4 => ConstantFits (readHeader data) data
    | 5 => StandardFits libs.ansCodec (readHeader data) data
    | _ => True

-- No fault, and an error or a buffer of the size that is reported.
def DecodesSafely (libs : Libraries) (data : Bytes) : Prop := Yields (decompressAny libs data) fun r => r.1.length = r.2

theorem yieldsNone {h : Header} {data : Bytes} : Yields (decompressNone h data) (fun r => r.1.length = r.2) ↔
    16 + h.uncompressedSize ≤ data.length := by
  unfold decompressNone
  rw [yieldsBind, yieldsReadAt, yieldsPure, List.length_take, List.length_drop]
  exact ⟨And.left, fun room => ⟨room, by omega⟩⟩

theorem decodesSafely {libs : Libraries} (works : libs.Work) {data : Bytes} (small : data.length < 2 ^ 32) :
    DecodesSafely libs data ↔ DecodesWhen libs data := by
  unfold DecodesSafely DecodesWhen decompressAny
  by_cases short : data.length < 16
  · rw [if_pos short]
    exact ⟨fun _ long => absurd long (Nat.not_le.mpr short), fun _ => trivial⟩
  · rw [if_neg short]
    by_cases foreign : (readHeader data).magic ≠ magic
    · rw [if_pos foreign]
      exact ⟨fun _ _ own => absurd own foreign, fun _ => trivial⟩
    · rw [if_neg foreign]
      have both : ∀ {p : Prop}, (16 ≤ data.length → (readHeader data).magic = magic → p) ↔ p :=
        ⟨fun all => all (Nat.le_of_not_lt short) (not_not.mp foreign), fun holds _ _ => holds⟩
      rw [both]
      generalize (readHeader data).method = method
      match method with
      | 0 => exact yieldsNone
      | 1 => exact Iff.rfl
      | 2 => exact yieldsStandard works.zstd small
      | 3 => exact yieldsHuff0 works.huf
      | 4 => exact yieldsConstant
      | 5 => exact yieldsStandard works.ans small
      | _ + 6 => exact Iff.rfl

/-! ## Frames of one raw block -/

-- What zstd makes of a frame of one raw block, its content of fewer than 32 bytes: all other frames are turned down here.
def rawFrame (content : Bytes) : Bytes :=
  [0x28, 0xB5, 0x2F, 0xFD, 0x20, BitVec.ofNat 8 content.length, BitVec.ofNat 8 (8 * content.length + 1), 0, 0] ++ content

def rawZstd (src : Bytes) (capacity : Nat) : Except String Bytes :=
  if src ≠ rawFrame (src.drop 9) ∨ 32 ≤ (src.drop 9).length then .error "Unknown frame descriptor"
  else if capacity < (src.drop 9).length then .error "Destination buffer is too small"
  else .ok (src.drop 9 ++ List.replicate (capacity - (src.drop 9).length) 0)

theorem rawZstdWorks {src out : Bytes} {capacity : Nat} (ran : rawZstd src capacity = .ok out) : out.length = capacity := by
  unfold rawZstd at ran
  split at ran
  · cases ran
  · split at ran
    · cases ran
    · next room =>
      cases ran
      rw [List.length_append, List.length_replicate]
      omega

-- The other two libraries turn all their sources down.
def rawLibraries : Libraries :=
  ⟨rawZstd, fun _ _ => .error "Corrupted block detected", fun _ _ => .error "Corrupted block detected", fun a _ => a⟩

theorem rawLibrariesWork : rawLibraries.Work :=
  ⟨fun _ _ _ => rawZstdWorks, fun _ _ _ refused => (nomatch refused), fun _ _ _ refused => (nomatch refused)⟩

-- Three values of two bytes as differences, whose upper byte is 3 throughout.
def threeValues : Bytes :=
  magic ++ [2, 2, 1, 66] ++ [6, 0, 0, 0] ++ [17, 0, 0, 0] ++ ([2, 0, 0, 0] ++ [3]) ++ rawFrame [7, 1, 2]

theorem decodesThreeValues : DecodesSafely rawLibraries threeValues := by
  refine (decodesSafely rawLibrariesWork (by decide)).mpr fun _ _ => ?_
  have bands : (standardBands (readHeader threeValues) threeValues).mask = 2 := by decide
  change StandardFits rawLibraries.zstdCodec (readHeader threeValues) threeValues
  refine ⟨fun set_ => absurd set_ (by decide), fun set_ => absurd set_ (by decide), fun _ => ⟨by decide, by decide, ?_, ?_⟩⟩
  · intro _ _
    decide
  · refine fun _ => ⟨fun _ _ _ => ⟨by decide, Or.inr ?_⟩, fun _ => by decide, fun set_ => absurd set_ (by decide)⟩
    rw [bands]
    exact (insideCount (by decide)).mpr (by decide)

-- A header of `none` that announces a byte, and one of zstd whose elements have no size.
def missingByte : Bytes := magic ++ [0, 1, 1, 0] ++ [1, 0, 0, 0] ++ [0, 0, 0, 0]
def noElement : Bytes := magic ++ [2, 0, 1, 64] ++ [1, 0, 0, 0] ++ [10, 0, 0, 0] ++ rawFrame [7]

theorem untrustedFaults : decompressAny rawLibraries missingByte = .error .fault ∧
    decompressAny rawLibraries noElement = .error .fault ∧
    ¬∀ data : Bytes, data.length < 2 ^ 32 → DecodesSafely rawLibraries data := by
  refine ⟨by rfl, by rfl, fun all => ?_⟩
  exact all missingByte (by decide)

end Dewfall.Decompress
