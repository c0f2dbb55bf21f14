import Dewfall.Core.Decompress

/-! Which bytes are decompressed without an access outside of a buffer, a size that wraps or a division by zero: the
exact inequalities on the fields, for all three containers. The entropy decoders keep to the ranges they are given. -/
namespace Dewfall.Decompress
open General General.Codec General.Buffers General.Faults WordArithmetic Preprocess

/-! ## The passes keep the length -/

theorem elementsRoom (data : Bytes) (size : Nat) : data.length / size * size ≤ data.length := Nat.div_mul_le_self ..

theorem deltaMortonLength (data : Bytes) (typeSize : Nat) : (deltaDecodeMorton data typeSize).length = data.length := by
  unfold deltaDecodeMorton
  split
  · rfl
  · split
    · rfl
    · rename_i fits _ ops found
      rw [not_or] at fits
      have some_ : 0 < data.length / typeSize := Nat.div_pos (by omega) (Nat.pos_of_ne_zero fits.1)
      refine forwardLength (opsInverses found).addLength ?_
      rw [Nat.sub_add_cancel some_]
      exact elementsRoom ..

theorem deltaU16x3Length (data : Bytes) : (deltaDecodeU16x3 data).length = data.length := by
  unfold deltaDecodeU16x3
  dsimp only
  split
  · rfl
  · rename_i some_
    refine forwardLength (fun a b _ _ => ?_) (blocksRoom some_)
    simp only [addU16x3, List.length_append, storeLength]

theorem correlateLength (data : Bytes) : (correlateU16x3 data).length = data.length := by
  refine mappedLength (fun b _ => ?_) (elementsRoom data 6)
  simp only [correlateElement, List.length_append, storeLength]

theorem offsetRestoreLength (addDouble : BitVec 64 → BitVec 64 → BitVec 64) (minimum : BitVec 64) (output : Bytes) :
    (offsetRestore addDouble minimum output).length = output.length :=
  mappedLength (fun _ _ => putLength _) (elementsRoom output 8)

theorem unsortLength (data : Bytes) (perm : List Nat) : (unsortWithPermutation data perm).length = data.length := by
  unfold unsortWithPermutation
  dsimp only
  split
  · rfl
  · have restored : ∀ (count : Nat) (l : List Nat) (start : List (BitVec 64)),
        (l.foldl (restoreAt count data perm) start).length = start.length := by
      intro count l
      induction l with
      | nil => exact fun _ => rfl
      | cons i rest ih =>
        intro start
        rw [List.foldl_cons, ih, restoreAt]
        split
        · rw [List.length_set]
        · rfl
    have whole := elementsRoom data 8
    rw [List.length_append, putsLength, restored, List.length_replicate, List.length_drop]
    omega

theorem singleDecodes {data : Bytes} {elementSize : Nat} (some_ : elementSize ≠ 0) :
    ∃ decoded, deltaDecodeSingle data elementSize = some decoded ∧ decoded.length = data.length := by
  unfold deltaDecodeSingle
  rw [if_neg some_]
  dsimp only
  split
  · exact ⟨data, rfl, rfl⟩
  · rename_i few
    split
    · exact ⟨_, rfl, forwardLength (wordInverses elementSize).addLength (blocksRoom few)⟩
    · exact ⟨data, rfl, rfl⟩

theorem unshuffleLength {shuffled : Bytes} {size : Nat} (whole : shuffled.length = size) (typeSize componentCount : Nat) :
    (byteUnshuffle shuffled (List.replicate size 0) typeSize componentCount).length = size := by
  unfold byteUnshuffle
  split
  · exact whole
  · rw [movedLength, List.length_replicate]

theorem yieldsUnshuffle {h : Header} {shuffled : Bytes} (whole : shuffled.length = h.uncompressedSize) {post : Bytes → Prop} :
    Yields (unshuffle h shuffled) post ↔
      post (byteUnshuffle shuffled (List.replicate h.uncompressedSize 0) h.typeSize h.componentCount) := by
  unfold unshuffle
  rw [yieldsBind, yieldsWithin, yieldsPure]
  refine ⟨And.right, fun holds => ⟨fun m mem => ?_, holds⟩⟩
  rw [← whole]
  have split := Nat.div_add_mod shuffled.length (h.typeSize * h.componentCount)
  have turned : h.typeSize * h.componentCount * (shuffled.length / (h.typeSize * h.componentCount)) =
      shuffled.length / (h.typeSize * h.componentCount) * (h.typeSize * h.componentCount) := Nat.mul_comm ..
  rcases moveMember.mp mem with ⟨i, k, low, inside, rfl⟩ | ⟨r, low, rfl⟩
  · rw [Nat.mul_comm h.componentCount] at inside
    have target := placeLt inside low
    have source := placeLt low inside
    dsimp only
    omega
  · dsimp only
    omega

theorem yieldsInPlace {size : Nat} {pass : Bytes → Bytes} {output : Bytes} {post : Bytes → Prop} :
    Yields (inPlace size pass output) post ↔ post (pass output) := by
  unfold inPlace
  rw [yieldsBind, yieldsWithin, yieldsPure]
  exact ⟨And.right, fun holds => ⟨elementsRoom .., holds⟩⟩


/-! ## The constant bands -/

section
variable {elementCount : Nat} {compacted shuffled constantValues : Bytes} {mask : BitVec 32}

def bandsBelow (mask : BitVec 32) (n : Nat) : Nat := (List.range n).countP (hasBand mask)
def othersBelow (mask : BitVec 32) (n : Nat) : Nat := (List.range n).countP fun b => !hasBand mask b

theorem bandsNext (mask : BitVec 32) (n : Nat) :
    bandsBelow mask (n + 1) = bandsBelow mask n + if hasBand mask n then 1 else 0 := by
  rw [bandsBelow, List.range_succ, List.countP_append]
  by_cases here : hasBand mask n = true <;> simp [here, bandsBelow]

theorem othersNext (mask : BitVec 32) (n : Nat) :
    othersBelow mask (n + 1) = othersBelow mask n + if hasBand mask n then 0 else 1 := by
  rw [othersBelow, List.range_succ, List.countP_append]
  by_cases here : hasBand mask n = true <;> simp [here, othersBelow]

theorem bandsAndOthers (mask : BitVec 32) (n : Nat) : bandsBelow mask n + othersBelow mask n = n := by
  induction n with
  | zero => rfl
  | succ n ih =>
    rw [bandsNext, othersNext]
    split <;> omega

theorem bandsLe (mask : BitVec 32) {n m : Nat} (le : n ≤ m) : bandsBelow mask n ≤ bandsBelow mask m := by
  obtain ⟨k, rfl⟩ := Nat.exists_eq_add_of_le le
  induction k with
  | zero => exact Nat.le_refl _
  | succ k ih =>
    rw [← Nat.add_assoc, bandsNext]
    exact Nat.le_add_right_of_le (ih (Nat.le_add_right n k))

def restoredTo (elementCount : Nat) (compacted shuffled : Bytes) (mask : BitVec 32)
    (constantValues : Bytes) (n : Nat) : Restoring :=
  (List.range n).foldl (restoreBand elementCount compacted mask constantValues) ⟨shuffled, 0, 0⟩

theorem restoredNext (n : Nat) : restoredTo elementCount compacted shuffled mask constantValues (n + 1) =
    restoreBand elementCount compacted mask constantValues
      (restoredTo elementCount compacted shuffled mask constantValues n) n := by
  rw [restoredTo, List.range_succ, List.foldl_append]
  rfl

-- The counters name what was read so far.
theorem restoredCounts {n : Nat} (room : n * elementCount ≤ shuffled.length)
    (read : othersBelow mask n * elementCount ≤ compacted.length) :
    let s := restoredTo elementCount compacted shuffled mask constantValues n
    s.shuffled.length = shuffled.length ∧ s.constIdx = bandsBelow mask n ∧ s.srcOffset = othersBelow mask n * elementCount := by
  induction n with
  | zero => exact ⟨rfl, rfl, (Nat.zero_mul _).symm⟩
  | succ n ih =>
    rw [othersNext, Nat.add_mul] at read
    have before : n * elementCount ≤ shuffled.length := Nat.le_trans (Nat.mul_le_mul_right _ (Nat.le_succ n)) room
    obtain ⟨length, constants, source⟩ := ih before (by omega)
    dsimp only
    rw [restoredNext, bandsNext, othersNext]
    unfold restoreBand
    by_cases here : hasBand mask n = true
    · rw [if_pos here, if_pos here, if_pos here]
      exact ⟨(setBlockLength (length.symm ▸ room) (List.length_replicate ..)).trans length, by rw [constants], source⟩
    · rw [if_neg here, if_neg here, if_neg here]
      rw [if_neg here, Nat.one_mul] at read
      refine ⟨(setBlockLength (length.symm ▸ room) ?_).trans length, constants, ?_⟩
      · rw [List.length_take, List.length_drop, source]
        omega
      · rw [source, Nat.add_mul, Nat.one_mul]

theorem yieldsBands {n : Nat} (room : n * elementCount ≤ shuffled.length) (values : constantValues.length = popcount mask)
    {post : Restoring → Prop} :
    Yields ((List.range n).foldlM (restoreNext elementCount compacted mask constantValues) ⟨shuffled, 0, 0⟩) post ↔
      n ≤ 32 ∧ othersBelow mask n * elementCount ≤ compacted.length ∧
        post (restoredTo elementCount compacted shuffled mask constantValues n) := by
  induction n generalizing post with
  | zero =>
    refine ⟨fun h => ⟨by decide, ?_, h⟩, fun h => h.2.2⟩
    rw [othersBelow, List.range_zero, List.countP_nil, Nat.zero_mul]
    exact Nat.zero_le _
  | succ n ih =>
    have before : n * elementCount ≤ shuffled.length := Nat.le_trans (Nat.mul_le_mul_right _ (Nat.le_succ n)) room
    rw [List.range_succ, List.foldlM_append, yieldsBind, ih before]
    simp only [List.foldlM_cons, List.foldlM_nil, bind_pure]
    rw [othersNext, Nat.add_mul, restoredNext]
    have one : ∀ (s : Restoring), othersBelow mask n * elementCount ≤ compacted.length →
        s.shuffled.length = shuffled.length → s.constIdx = bandsBelow mask n →
        s.srcOffset = othersBelow mask n * elementCount →
        (Yields (restoreNext elementCount compacted mask constantValues s n) post ↔ n < 32 ∧
          othersBelow mask n * elementCount + (if hasBand mask n then 0 else 1) * elementCount ≤ compacted.length ∧
          post (restoreBand elementCount compacted mask constantValues s n)) := by
      intro s read length constants source
      unfold restoreNext
      rw [yieldsBind, yieldsWithin, yieldsBind, yieldsWithin, yieldsPure, length, constants, values, source]
      by_cases here : hasBand mask n = true
      · have below : n < 32 → bandsBelow mask n < popcount mask := fun small => by
          have next := bandsLe mask (show n + 1 ≤ 32 from small)
          rw [bandsNext, if_pos here] at next
          exact next
        rw [if_pos here, if_pos here, Nat.zero_mul, Nat.add_zero]
        exact ⟨fun ⟨⟨small, _⟩, _, holds⟩ => ⟨small, read, holds⟩,
          fun ⟨small, _, holds⟩ => ⟨⟨small, room⟩, below small, holds⟩⟩
      · rw [if_neg here, if_neg here, Nat.one_mul]
        exact ⟨fun ⟨⟨small, _⟩, holds⟩ => ⟨small, holds⟩, fun ⟨small, holds⟩ => ⟨⟨small, room⟩, holds⟩⟩
    constructor
    · rintro ⟨_, read, step⟩
      obtain ⟨length, constants, source⟩ := @restoredCounts elementCount compacted shuffled constantValues mask n before read
      obtain ⟨small, more, holds⟩ := (one _ read length constants source).mp step
      exact ⟨small, more, holds⟩
    · rintro ⟨small, more, holds⟩
      have read : othersBelow mask n * elementCount ≤ compacted.length := by omega
      obtain ⟨length, constants, source⟩ := @restoredCounts elementCount compacted shuffled constantValues mask n before read
      exact ⟨by omega, read, (one _ read length constants source).mpr ⟨small, more, holds⟩⟩

-- With as many bands compacted as the mask leaves, the mask names none beyond the stride.
def BandsInside (h : Header) (mask : BitVec 32) : Prop :=
  h.stride ≤ 32 ∧ (h.uncompressedSize < h.stride ∨ ∀ b, h.stride ≤ b → b < 32 → hasBand mask b = false)

theorem insideCount {mask : BitVec 32} {stride : Nat} (small : stride ≤ 32) :
    (∀ b, stride ≤ b → b < 32 → hasBand mask b = false) ↔ popcount mask ≤ bandsBelow mask stride := by
  constructor
  · intro none_
    have same : ∀ k, stride + k ≤ 32 → bandsBelow mask (stride + k) = bandsBelow mask stride := by
      intro k
      induction k with
      | zero => exact fun _ => rfl
      | succ k ih =>
        intro inside
        rw [← Nat.add_assoc, bandsNext, ih (by omega), none_ (stride + k) (Nat.le_add_right ..) (by omega)]
        rfl
    have whole := same (32 - stride) (by omega)
    rw [Nat.add_sub_cancel' small] at whole
    exact Nat.le_of_eq whole
  · intro all b far inside
    by_contra here
    rw [Bool.not_eq_false] at here
    have first := bandsLe mask far
    have next := bandsLe mask (show b + 1 ≤ 32 from inside)
    rw [bandsNext, if_pos here] at next
    have total : bandsBelow mask 32 = popcount mask := rfl
    omega

theorem yieldsRestored {h : Header} (whole : shuffled.length = h.uncompressedSize) (some_ : h.stride ≠ 0)
    (values : constantValues.length = popcount mask) (few : popcount mask ≤ h.stride)
    (sized : compacted.length = (h.stride - popcount mask) * (h.uncompressedSize / h.stride) + h.uncompressedSize % h.stride)
    (full : h.uncompressedSize ≠ 0) {post : Bytes → Prop} {rest_ : Prop}
    (same : ∀ r : Bytes, r.length = h.uncompressedSize → (post r ↔ rest_)) :
    Yields (restoreConstant h compacted shuffled mask constantValues) post ↔ BandsInside h mask ∧ rest_ := by
  have room : h.stride * (h.uncompressedSize / h.stride) ≤ shuffled.length := by
    rw [whole]
    exact Nat.mul_div_le ..
  have split := Nat.div_add_mod h.uncompressedSize h.stride
  have partition := bandsAndOthers mask h.stride
  unfold restoreConstant
  rw [if_neg (by rw [whole]; omega), whole]
  dsimp only
  rw [yieldsBind, yieldsBands room values]
  -- The remainder is read behind the bands that are not constant.
  have tail_ : othersBelow mask h.stride * (h.uncompressedSize / h.stride) ≤ compacted.length →
      (Yields (if 0 < h.uncompressedSize % h.stride then (do
          let rest ← readAt compacted (restoredTo (h.uncompressedSize / h.stride) compacted shuffled mask constantValues
            h.stride).srcOffset (h.uncompressedSize % h.stride)
          writeAt (restoredTo (h.uncompressedSize / h.stride) compacted shuffled mask constantValues h.stride).shuffled
            (h.stride * (h.uncompressedSize / h.stride)) rest)
        else pure (restoredTo (h.uncompressedSize / h.stride) compacted shuffled mask constantValues h.stride).shuffled :
          Decoding Bytes) post ↔
        othersBelow mask h.stride * (h.uncompressedSize / h.stride) + h.uncompressedSize % h.stride ≤ compacted.length ∧
          rest_) := by
    intro read
    obtain ⟨length, _, source⟩ := @restoredCounts _ compacted shuffled constantValues mask h.stride room read
    have piece : ∀ at_, at_ + h.uncompressedSize % h.stride ≤ compacted.length →
        ((compacted.drop at_).take (h.uncompressedSize % h.stride)).length = h.uncompressedSize % h.stride := fun at_ here => by
      rw [List.length_take, List.length_drop]
      omega
    rw [yieldsIte, yieldsBind, yieldsReadAt, yieldsWriteAt, yieldsPure, source]
    have written : ∀ b : Bytes, b.length = h.uncompressedSize % h.stride →
        h.stride * (h.uncompressedSize / h.stride) + b.length ≤ (restoredTo (h.uncompressedSize / h.stride) compacted shuffled
          mask constantValues h.stride).shuffled.length := fun b fits => by
      rw [fits, length, whole]
      omega
    constructor
    · intro both
      by_cases some_ : 0 < h.uncompressedSize % h.stride
      · obtain ⟨here, _, holds⟩ := both.1 some_
        exact ⟨here, (same _ ((writtenLength (written _ (piece _ here))).trans (length.trans whole))).mp holds⟩
      · exact ⟨by omega, (same _ (length.trans whole)).mp (both.2 some_)⟩
    · rintro ⟨here, holds⟩
      have fits := written _ (piece _ here)
      exact ⟨fun _ => ⟨here, fits, (same _ ((writtenLength fits).trans (length.trans whole))).mpr holds⟩,
        fun _ => (same _ (length.trans whole)).mpr holds⟩
  have counts : (othersBelow mask h.stride * (h.uncompressedSize / h.stride) + h.uncompressedSize % h.stride ≤ compacted.length) ↔
      (h.uncompressedSize < h.stride ∨ popcount mask ≤ bandsBelow mask h.stride) := by
    rw [sized, Nat.add_le_add_iff_right]
    constructor
    · intro le
      by_cases none_ : h.uncompressedSize / h.stride = 0
      · exact .inl ((Nat.div_eq_zero_iff.mp none_).resolve_left some_)
      · have fewer := Nat.le_of_mul_le_mul_right le (Nat.pos_of_ne_zero none_)
        exact .inr (by omega)
    · rintro (short | all)
      · rw [Nat.div_eq_of_lt short, Nat.mul_zero, Nat.mul_zero]
      · exact Nat.mul_le_mul_right _ (by omega)
  unfold BandsInside
  constructor
  · rintro ⟨small, read, tail⟩
    obtain ⟨le, holds⟩ := (tail_ read).mp tail
    exact ⟨⟨small, (counts.mp le).imp_right (insideCount small).mpr⟩, holds⟩
  · rintro ⟨⟨small, inside⟩, holds⟩
    have le := counts.mpr (inside.imp_right (insideCount small).mp)
    have read : othersBelow mask h.stride * (h.uncompressedSize / h.stride) ≤ compacted.length := by omega
    exact ⟨small, read, (tail_ read).mpr ⟨le, holds⟩⟩

def BandsFit (h : Header) (mask : BitVec 32) : Prop := mask ≠ 0 → h.stride ≠ 0 → popcount mask ≤ h.stride

def compactedOf (h : Header) (mask : BitVec 32) : Nat :=
  if mask ≠ 0 ∧ 0 < h.stride then
    (h.stride - popcount mask) * (h.uncompressedSize / h.stride) + h.uncompressedSize % h.stride
  else h.uncompressedSize

theorem yieldsCompactedSize {h : Header} {mask : BitVec 32} {post : Nat → Prop} :
    Yields (compactedSize h mask) post ↔ BandsFit h mask ∧ post (compactedOf h mask) := by
  unfold compactedSize compactedOf BandsFit
  by_cases bands : mask ≠ 0 ∧ 0 < h.stride
  · rw [if_pos bands, if_pos bands, yieldsBind, yieldsDifference, yieldsPure]
    exact ⟨fun ⟨few, holds⟩ => ⟨fun _ _ => few, holds⟩, fun ⟨few, holds⟩ => ⟨few bands.1 (by omega), holds⟩⟩
  · rw [if_neg bands, if_neg bands, yieldsPure]
    exact ⟨fun holds => ⟨fun some_ wide => absurd ⟨some_, Nat.pos_of_ne_zero wide⟩ bands, holds⟩, And.right⟩

def RestoreFits (h : Header) (mask : BitVec 32) : Prop :=
  mask ≠ 0 → h.stride ≠ 0 → h.uncompressedSize ≠ 0 → BandsInside h mask

theorem yieldsShuffled {h : Header} {bands : Bands} (values : bands.constantValues.length = popcount bands.mask)
    (few : BandsFit h bands.mask) (sized : compacted.length = compactedOf h bands.mask) {post : Bytes → Prop} {rest_ : Prop}
    (same : ∀ r : Bytes, r.length = h.uncompressedSize → (post r ↔ rest_)) :
    Yields (restoreShuffled h bands compacted) post ↔ RestoreFits h bands.mask ∧ rest_ := by
  unfold restoreShuffled RestoreFits
  by_cases some_ : bands.mask ≠ 0
  · rw [if_pos some_]
    have whole : (List.replicate h.uncompressedSize (0 : BitVec 8)).length = h.uncompressedSize := List.length_replicate
    by_cases plain : h.stride = 0 ∨ h.uncompressedSize = 0
    · unfold restoreConstant
      rw [if_pos (by rw [whole]; exact plain), yieldsPure, same _ whole]
      refine ⟨fun holds => ⟨fun _ wide full => ?_, holds⟩, And.right⟩
      exact absurd plain (not_or.mpr ⟨wide, full⟩)
    · rw [not_or] at plain
      unfold compactedOf at sized
      rw [if_pos ⟨some_, Nat.pos_of_ne_zero plain.1⟩] at sized
      rw [yieldsRestored whole plain.1 values (few some_ plain.1) sized plain.2 same]
      exact ⟨fun ⟨inside, holds⟩ => ⟨fun _ _ _ => inside, holds⟩, fun ⟨inside, holds⟩ => ⟨inside some_ plain.1 plain.2, holds⟩⟩
  · unfold compactedOf at sized
    rw [if_neg fun both => some_ both.1] at sized
    have taken : ((compacted.drop 0).take h.uncompressedSize).length = h.uncompressedSize := by
      rw [List.length_take, List.length_drop]
      omega
    rw [if_neg some_, yieldsReadAt, same _ taken]
    exact ⟨fun ⟨_, holds⟩ => ⟨fun mask => absurd mask some_, holds⟩, fun ⟨_, holds⟩ => ⟨by omega, holds⟩⟩

end

/-! ## The transforms undone -/

section
variable {h : Header} {libs : Libraries} {output : Bytes} {post : Bytes → Prop} {rest : Prop}

theorem yieldsElementDelta (whole : output.length = h.uncompressedSize)
    (same : ∀ r : Bytes, r.length = h.uncompressedSize → (post r ↔ rest)) :
    Yields (undoElementDelta h output) post ↔ (h.has elementDelta = true → h.typeSize ≠ 0) ∧ rest := by
  unfold undoElementDelta
  by_cases set_ : h.has elementDelta = true
  · rw [if_pos set_]
    unfold decodeSingle
    by_cases some_ : h.typeSize = 0
    · have fault : deltaDecodeSingle output h.typeSize = none := if_pos some_
      rw [fault]
      exact ⟨fun holds => holds.elim, fun holds => absurd some_ (holds.1 set_)⟩
    · obtain ⟨decoded, ran, length⟩ := @singleDecodes output _ some_
      rw [ran]
      refine (same decoded (length.trans whole)).trans ⟨fun holds => ⟨fun _ => some_, holds⟩, And.right⟩
  · rw [if_neg set_, yieldsPure, same output whole]
    exact ⟨fun holds => ⟨fun here => absurd here set_, holds⟩, And.right⟩

theorem yieldsPass {p : Prop} [Decidable p] {size : Nat} {pass : Bytes → Bytes} (keeps : (pass output).length = output.length)
    (whole : output.length = h.uncompressedSize) (same : ∀ r : Bytes, r.length = h.uncompressedSize → (post r ↔ rest)) :
    Yields (if p then inPlace size pass output else pure output) post ↔ rest := by
  rw [yieldsIte, yieldsInPlace, yieldsPure, same _ (keeps.trans whole), same _ whole]
  exact ⟨fun ⟨yes, no⟩ => (Decidable.em p).elim yes no, fun holds => ⟨fun _ => holds, fun _ => holds⟩⟩

theorem yieldsMorton (whole : output.length = h.uncompressedSize) (dataOffset stride : Nat)
    (same : ∀ r : Bytes, r.length = h.uncompressedSize → (post r ↔ rest)) :
    Yields (decodeMorton output dataOffset stride) post ↔ dataOffset ≤ h.uncompressedSize ∧ rest := by
  unfold decodeMorton
  rw [yieldsBind, yieldsDifference, yieldsBind, yieldsReadAt, yieldsBind, yieldsInPlace, yieldsWriteAt]
  have length : dataOffset ≤ output.length →
      (deltaDecodeMorton ((output.drop dataOffset).take (output.length - dataOffset)) stride).length =
        output.length - dataOffset := fun _ => by
    rw [deltaMortonLength, List.length_take, List.length_drop, Nat.min_self]
  constructor
  · rintro ⟨le, _, room, holds⟩
    exact ⟨whole ▸ le, (same _ ((writtenLength room).trans whole)).mp holds⟩
  · rintro ⟨le, holds⟩
    rw [← whole] at le
    have room : dataOffset + (deltaDecodeMorton ((output.drop dataOffset).take (output.length - dataOffset)) stride).length ≤
        output.length := by rw [length le]; omega
    exact ⟨le, by omega, room, (same _ ((writtenLength room).trans whole)).mpr holds⟩

theorem yieldsDelta (whole : output.length = h.uncompressedSize) (permuted : Bool) (dataOffset : Nat)
    (same : ∀ r : Bytes, r.length = h.uncompressedSize → (post r ↔ rest)) :
    Yields (undoDelta h permuted dataOffset output) post ↔
      (h.has deltaEncoded = true → permuted = false → dataOffset ≤ h.uncompressedSize) ∧ rest := by
  unfold undoDelta
  by_cases set_ : h.has deltaEncoded = true
  · rw [if_pos set_]
    cases permuted with
    | true =>
      rw [if_pos rfl, yieldsInPlace, same _ ((deltaMortonLength output 8).trans whole)]
      exact ⟨fun holds => ⟨fun _ no => (nomatch no), holds⟩, And.right⟩
    | false =>
      rw [if_neg Bool.false_ne_true, yieldsMorton whole dataOffset _ same]
      exact ⟨fun ⟨le, holds⟩ => ⟨fun _ _ => le, holds⟩, fun ⟨le, holds⟩ => ⟨le set_ rfl, holds⟩⟩
  · rw [if_neg set_, yieldsPure, same output whole]
    exact ⟨fun holds => ⟨fun here => absurd here set_, holds⟩, And.right⟩

theorem yieldsPermutation (whole : output.length = h.uncompressedSize) {permuted : Bool} {permutation : List Nat}
    (sized : permuted = true → permutation.length = permutationCount h)
    (same : ∀ r : Bytes, r.length = h.uncompressedSize → (post r ↔ rest)) :
    Yields (undoPermutation permuted permutation output) post ↔ rest := by
  unfold undoPermutation
  cases permuted with
  | true =>
    rw [if_pos rfl, yieldsBind, yieldsWithin, yieldsInPlace, same _ ((unsortLength output permutation).trans whole), sized rfl,
      permutationCount, whole]
    exact ⟨And.right, fun holds => ⟨Nat.le_refl _, holds⟩⟩
  | false => exact same output whole

def TransformsFit (h : Header) (permuted : Bool) (mask : BitVec 32) (dataOffset : Nat) : Prop :=
  RestoreFits h mask ∧ (h.has elementDelta = true → h.typeSize ≠ 0) ∧
    (h.has deltaEncoded = true → permuted = false → dataOffset ≤ h.uncompressedSize)

theorem yieldsUndo {permuted : Bool} {m : Metadata} {compacted : Bytes}
    (values : m.bands.constantValues.length = popcount m.bands.mask) (few : BandsFit h m.bands.mask)
    (sized : compacted.length = compactedOf h m.bands.mask)
    (permutation : permuted = true → m.permutation.length = permutationCount h) :
    Yields (undo libs h permuted m compacted) (fun r => r.1.length = r.2) ↔
      TransformsFit h permuted m.bands.mask m.dataOffset := by
  unfold undo TransformsFit
  rw [yieldsBind]
  refine yieldsShuffled values few sized fun shuffled whole => ?_
  rw [yieldsBind, yieldsUnshuffle whole, yieldsBind]
  refine yieldsElementDelta (unshuffleLength whole ..) fun output whole => ?_
  rw [yieldsBind]
  refine yieldsPass (deltaU16x3Length output) whole fun output whole => ?_
  rw [yieldsBind]
  refine yieldsPass (correlateLength output) whole fun output whole => ?_
  rw [yieldsBind]
  refine (yieldsDelta whole permuted m.dataOffset fun output whole => ?_).trans (and_iff_left trivial)
  rw [yieldsBind]
  refine yieldsPermutation whole permutation fun output whole => ?_
  rw [yieldsBind]
  exact yieldsPass (offsetRestoreLength libs.addDouble m.offsetMinValue output) whole fun output whole =>
    ⟨fun _ => trivial, fun _ => whole⟩

end
end Dewfall.Decompress
