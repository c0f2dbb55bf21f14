import Dewfall.Core.WordArithmetic
import Dewfall.General.Buffers
import Mathlib.Data.List.Perm.Basic
import Mathlib.Data.List.Sort

/-! The lossless transforms in front of an entropy coder, each with its inverse: byte bands, differences of
neighbours, colour decorrelation, sorting with a stored permutation and removal of constant bands. Sizes are
taken as numbers; the subtraction of a smallest double, which rounds, is not treated. -/
namespace Dewfall.Preprocess
open General General.Codec General.Buffers WordArithmetic

/-! ## byte_shuffle -/

-- Byte `k` of element `i` is entry `i` of band `k`; the bytes behind the last element stay where they are.
def shuffleMoves (totalSize typesize componentCount : Nat) : List (Nat × Nat) :=
  let stride := typesize * componentCount
  let elementCount := totalSize / stride
  let remainder := totalSize % stride
  ((List.range elementCount).flatMap fun i =>
    (List.range componentCount).flatMap fun c =>
      (List.range typesize).map fun b =>
        ((c * typesize + b) * elementCount + i, i * stride + (c * typesize + b))) ++
    (List.range remainder).map fun r => (stride * elementCount + r, stride * elementCount + r)

def byteShuffle (src dst : Bytes) (typesize componentCount : Nat) : Bytes :=
  if typesize * componentCount ≤ 1 ∨ src.length = 0 then src
  else (shuffleMoves src.length typesize componentCount).foldl (move 0 src) dst

def byteUnshuffle (src dst : Bytes) (typesize componentCount : Nat) : Bytes :=
  if typesize * componentCount ≤ 1 ∨ src.length = 0 then src
  else ((shuffleMoves src.length typesize componentCount).map Prod.swap).foldl (move 0 src) dst

/-! ## Differences of neighbours -/

def deltaEncodeMorton (data : Bytes) (typeSize : Nat) : Bool × Bytes :=
  if typeSize = 0 ∨ data.length < typeSize then (false, data)
  else match getMortonOps typeSize with
    | none => (false, data)
    | some ops =>
      let count := data.length / typeSize
      if count ≤ 1 then (true, data)
      else if (List.range (count - 1)).any fun i => ops.less (block typeSize data (i + 1)) (block typeSize data i) then
        (false, data)
      else (true, (List.range (count - 1)).reverse.foldl (nextStep typeSize ops.sub) data)

def deltaDecodeMorton (data : Bytes) (typeSize : Nat) : Bytes :=
  if typeSize = 0 ∨ data.length < typeSize then data
  else match getMortonOps typeSize with
    | none => data
    | some ops => (List.range (data.length / typeSize - 1)).foldl (nextStep typeSize ops.add) data

def subU16x3 (curr prev : Bytes) : Bytes :=
  store (load 2 curr 0 - load 2 prev 0) ++ (store (load 2 curr 1 - load 2 prev 1) ++
    store (load 2 curr 2 - load 2 prev 2))

def addU16x3 (curr prev : Bytes) : Bytes :=
  store (load 2 curr 0 + load 2 prev 0) ++ (store (load 2 curr 1 + load 2 prev 1) ++
    store (load 2 curr 2 + load 2 prev 2))

def deltaEncodeU16x3 (data : Bytes) : Bytes :=
  let count := data.length / 6
  if count ≤ 1 then data else (List.range (count - 1)).reverse.foldl (nextStep 6 subU16x3) data

def deltaDecodeU16x3 (data : Bytes) : Bytes :=
  let count := data.length / 6
  if count ≤ 1 then data else (List.range (count - 1)).foldl (nextStep 6 addU16x3) data

def elementWidth (elementSize : Nat) : Bool :=
  match elementSize with
  | 1 | 2 | 4 | 8 => true
  | _ => false

-- No element size is zero: the count would be a division by it.
def deltaEncodeSingle (data : Bytes) (elementSize : Nat) : Option Bytes :=
  if elementSize = 0 then none
  else
    let count := data.length / elementSize
    if count ≤ 1 then some data
    else if elementWidth elementSize then
      some ((List.range (count - 1)).reverse.foldl (nextStep elementSize (subWord elementSize)) data)
    else some data

def deltaDecodeSingle (data : Bytes) (elementSize : Nat) : Option Bytes :=
  if elementSize = 0 then none
  else
    let count := data.length / elementSize
    if count ≤ 1 then some data
    else if elementWidth elementSize then
      some ((List.range (count - 1)).foldl (nextStep elementSize (addWord elementSize)) data)
    else some data

/-! ## Decorrelation -/

def decorrelateElement (elem : Bytes) : Bytes :=
  let r := load 2 elem 0
  let g := load 2 elem 1
  let b := load 2 elem 2
  store g ++ (store (r - g) ++ store (b - g))

def correlateElement (elem : Bytes) : Bytes :=
  let g := load 2 elem 0
  let dr := load 2 elem 1
  let db := load 2 elem 2
  store (dr + g) ++ (store g ++ store (db + g))

def decorrelateU16x3 (data : Bytes) : Bytes := (List.range (data.length / 6)).foldl (mapStep 6 decorrelateElement) data

def correlateU16x3 (data : Bytes) : Bytes := (List.range (data.length / 6)).foldl (mapStep 6 correlateElement) data

/-! ## Sorting with a permutation -/

def values (data : Bytes) (count : Nat) : List (BitVec 64) := (List.range count).map (u64 data)

-- The library's sort by a comparison is left open.
def sortWithPermutation (sort : (Nat → Nat → Bool) → List Nat → List Nat) (data : Bytes) : Bytes × List Nat :=
  let count := data.length / 8
  let perm := sort (fun a b => u64 data a < u64 data b) (List.range count)
  ((perm.map (u64 data)).flatMap put ++ data.drop (8 * count), perm)

def sortWithPermutationU16 (sort : (Nat → Nat → Bool) → List Nat → List Nat) (data : Bytes) :
    Bool × Bytes × List Nat :=
  let count := data.length / 8
  if count = 0 ∨ 65535 < count then (false, data, []) else (true, sortWithPermutation sort data)

def sortWithPermutationU32 (sort : (Nat → Nat → Bool) → List Nat → List Nat) (data : Bytes) :
    Bool × Bytes × List Nat :=
  if data.length / 8 = 0 then (false, data, []) else (true, sortWithPermutation sort data)

-- An entry out of range is skipped.
def restoreAt (count : Nat) (data : Bytes) (perm : List Nat) (restored : List (BitVec 64)) (i : Nat) :
    List (BitVec 64) :=
  if perm.getD i 0 < count then restored.set (perm.getD i 0) (u64 data i) else restored

def unsortWithPermutation (data : Bytes) (perm : List Nat) : Bytes :=
  let count := data.length / 8
  if count = 0 then data
  else ((List.range count).foldl (restoreAt count data perm) (List.replicate count 0)).flatMap put ++
    data.drop (8 * count)

/-! ## Constant bands -/

structure BandCompactResult where
  bandMask : BitVec 32
  constantValues : Bytes
  compactedData : Bytes

def constantBand (elementCount : Nat) (shuffled : Bytes) (b : Nat) : Bool :=
  let band := block elementCount shuffled b
  band.all (· = band.getD 0 0)

def scanBand (elementCount : Nat) (shuffled : Bytes) (found : BitVec 32 × Bytes) (b : Nat) : BitVec 32 × Bytes :=
  if constantBand elementCount shuffled b then
    (found.1 ||| 1#32 <<< b, found.2 ++ [(block elementCount shuffled b).getD 0 0])
  else found

def hasBand (mask : BitVec 32) (b : Nat) : Bool := mask &&& 1#32 <<< b ≠ 0

def detectConstantBands (shuffled : Bytes) (typeSize componentCount : Nat) : BandCompactResult :=
  let stride := typeSize * componentCount
  if stride = 0 ∨ shuffled.length = 0 then ⟨0, [], shuffled⟩
  else
    let elementCount := shuffled.length / stride
    if 32 < stride ∨ elementCount = 0 then ⟨0, [], shuffled⟩
    else
      let found := (List.range stride).foldl (scanBand elementCount shuffled) (0, [])
      if found.1 = 0 then ⟨0, found.2, shuffled⟩
      else ⟨found.1, found.2, ((List.range stride).filter fun b => !hasBand found.1 b).flatMap (block elementCount shuffled) ++
        shuffled.drop (stride * elementCount)⟩

structure Restoring where
  shuffled : Bytes
  srcOffset : Nat
  constIdx : Nat

def restoreBand (elementCount : Nat) (compacted : Bytes) (bandMask : BitVec 32) (constantValues : Bytes) (s : Restoring)
    (b : Nat) : Restoring :=
  if hasBand bandMask b then
    { s with
      shuffled := setBlock elementCount s.shuffled b (List.replicate elementCount (constantValues.getD s.constIdx 0))
      constIdx := s.constIdx + 1 }
  else
    { s with
      shuffled := setBlock elementCount s.shuffled b ((compacted.drop s.srcOffset).take elementCount)
      srcOffset := s.srcOffset + elementCount }

def restoreConstantBands (compacted shuffled : Bytes) (bandMask : BitVec 32) (constantValues : Bytes)
    (typeSize componentCount : Nat) : Bytes :=
  let stride := typeSize * componentCount
  if stride = 0 ∨ shuffled.length = 0 then shuffled
  else
    let elementCount := shuffled.length / stride
    let remainder := shuffled.length % stride
    let restored := (List.range stride).foldl (restoreBand elementCount compacted bandMask constantValues)
      ⟨shuffled, 0, 0⟩
    restored.shuffled.take (stride * elementCount) ++ (compacted.drop restored.srcOffset).take remainder

-- The bands are restored only behind a mask that names some.
def restoreBands (r : BandCompactResult) (shuffled : Bytes) (typeSize componentCount : Nat) : Bytes :=
  if r.bandMask ≠ 0 then restoreConstantBands r.compactedData shuffled r.bandMask r.constantValues typeSize componentCount
  else r.compactedData

/-! ## The shuffle undone -/

theorem placeInj {w k i k' i' : Nat} (first : i < w) (second : i' < w) (same : k * w + i = k' * w + i') :
    k = k' ∧ i = i' := by
  have positive := Nat.zero_lt_of_lt first
  have high := congrArg (· / w) same
  have low := congrArg (· % w) same
  simp only [Nat.mul_comm _ w, Nat.mul_add_div positive, Nat.div_eq_of_lt first, Nat.div_eq_of_lt second,
    Nat.add_zero] at high
  simp only [Nat.mul_comm _ w, Nat.mul_add_mod, Nat.mod_eq_of_lt first, Nat.mod_eq_of_lt second] at low
  exact ⟨high, low⟩

theorem placeLt {n w k i : Nat} (inside : k < n) (low : i < w) : k * w + i < n * w := by
  have next := Nat.mul_le_mul_right w inside
  rw [Nat.succ_mul] at next
  omega

theorem moveMember {n ts cc : Nat} {m : Nat × Nat} : m ∈ shuffleMoves n ts cc ↔
    (∃ i k, i < n / (ts * cc) ∧ k < cc * ts ∧ m = (k * (n / (ts * cc)) + i, i * (ts * cc) + k)) ∨
      ∃ r < n % (ts * cc), m = (ts * cc * (n / (ts * cc)) + r, ts * cc * (n / (ts * cc)) + r) := by
  simp only [shuffleMoves, List.mem_append, List.mem_flatMap, List.mem_map, List.mem_range]
  constructor
  · rintro (⟨i, low, c, inside, b, byte, rfl⟩ | ⟨r, low, rfl⟩)
    · exact .inl ⟨i, c * ts + b, low, placeLt inside byte, rfl⟩
    · exact .inr ⟨r, low, rfl⟩
  · rintro (⟨i, k, low, inside, rfl⟩ | ⟨r, low, rfl⟩)
    · have positive : 0 < ts := Nat.pos_of_ne_zero fun none_ => by
        rw [none_, Nat.mul_zero] at inside
        exact Nat.not_lt_zero k inside
      have split : k / ts * ts + k % ts = k := by
        rw [Nat.mul_comm]
        exact Nat.div_add_mod k ts
      exact .inl ⟨i, low, k / ts, Nat.div_lt_of_lt_mul (Nat.mul_comm cc ts ▸ inside), k % ts, Nat.mod_lt k positive,
        by rw [split]⟩
    · exact .inr ⟨r, low, rfl⟩

theorem shuffleUndone {src dst back : Bytes} {ts cc : Nat} (room : dst.length = src.length)
    (place : back.length = src.length) : byteUnshuffle (byteShuffle src dst ts cc) back ts cc = src := by
  unfold byteUnshuffle byteShuffle
  by_cases plain : ts * cc ≤ 1 ∨ src.length = 0
  · rw [if_pos plain, if_pos plain]
  · rw [if_neg plain, movedLength, room, if_neg plain]
    have wide : 0 < ts * cc := by omega
    have whole := Nat.div_add_mod src.length (ts * cc)
    have turned : ts * cc * (src.length / (ts * cc)) = src.length / (ts * cc) * (ts * cc) := Nat.mul_comm ..
    have flat : cc * ts = ts * cc := Nat.mul_comm ..
    have target : ∀ {i k}, i < src.length / (ts * cc) → k < cc * ts →
        k * (src.length / (ts * cc)) + i < ts * cc * (src.length / (ts * cc)) := fun {i k} low inside =>
      (placeLt inside low).trans_eq (congrArg (· * _) flat)
    have source : ∀ {i k}, i < src.length / (ts * cc) → k < cc * ts →
        i * (ts * cc) + k < ts * cc * (src.length / (ts * cc)) := fun {i k} low inside => by
      rw [turned]
      exact placeLt low (flat ▸ inside)
    refine movesUndone ?_ ?_ ?_ ?_ rfl room place
    · intro m member k other same
      rcases moveMember.mp member with ⟨i, p, low, inside, rfl⟩ | ⟨r, low, rfl⟩ <;>
        rcases moveMember.mp other with ⟨i', p', low', inside', rfl⟩ | ⟨r', low', rfl⟩
      · obtain ⟨rfl, rfl⟩ := placeInj low low' same
        rfl
      · have here := target low inside
        dsimp only at same
        omega
      · have here := target low' inside'
        dsimp only at same
        omega
      · exact same
    · intro m member k other same
      rcases moveMember.mp member with ⟨i, p, low, inside, rfl⟩ | ⟨r, low, rfl⟩ <;>
        rcases moveMember.mp other with ⟨i', p', low', inside', rfl⟩ | ⟨r', low', rfl⟩
      · obtain ⟨rfl, rfl⟩ := placeInj (flat ▸ inside) (flat ▸ inside') same
        rfl
      · have here := source low inside
        dsimp only at same
        omega
      · have here := source low' inside'
        dsimp only at same
        omega
      · exact same
    · intro m member
      rcases moveMember.mp member with ⟨i, p, low, inside, rfl⟩ | ⟨r, low, rfl⟩
      · have here := target low inside
        dsimp only
        omega
      · dsimp only
        omega
    · intro j inside
      by_cases element : j < ts * cc * (src.length / (ts * cc))
      · have split : j / (ts * cc) * (ts * cc) + j % (ts * cc) = j := by
          rw [Nat.mul_comm]
          exact Nat.div_add_mod j (ts * cc)
        refine ⟨_, moveMember.mpr (.inl ⟨j / (ts * cc), j % (ts * cc), Nat.div_lt_of_lt_mul element, ?_, rfl⟩), split⟩
        rw [flat]
        exact Nat.mod_lt j wide
      · exact ⟨_, moveMember.mpr (.inr ⟨j - ts * cc * (src.length / (ts * cc)), by omega, rfl⟩), by dsimp only; omega⟩

/-! ## The differences undone -/

theorem blocksRoom {data : Bytes} {size : Nat} (some_ : ¬data.length / size ≤ 1) :
    (data.length / size - 1 + 1) * size ≤ data.length := by
  rw [Nat.sub_add_cancel (by omega)]
  exact Nat.div_mul_le_self ..

theorem deltaPassUndone {data : Bytes} {size : Nat} {sub add : Bytes → Bytes → Bytes}
    (keeps : ∀ a b, a.length = size → b.length = size → (sub a b).length = size)
    (back : ∀ a b, a.length = size → b.length = size → add (sub a b) b = a) (some_ : ¬data.length / size ≤ 1) :
    ((List.range (data.length / size - 1)).reverse.foldl (nextStep size sub) data).length = data.length ∧
    (List.range (data.length / size - 1)).foldl (nextStep size add)
      ((List.range (data.length / size - 1)).reverse.foldl (nextStep size sub) data) = data :=
  ⟨passLength keeps (blocksRoom some_), passUndone keeps back (blocksRoom some_)⟩

theorem deltaMortonUndone (data : Bytes) (typeSize : Nat) :
    if (deltaEncodeMorton data typeSize).1 then deltaDecodeMorton (deltaEncodeMorton data typeSize).2 typeSize = data
    else (deltaEncodeMorton data typeSize).2 = data := by
  unfold deltaEncodeMorton
  split
  · rfl
  · rename_i fits
    cases found : getMortonOps typeSize with
    | none => rfl
    | some ops =>
      dsimp only
      have inverses := opsInverses found
      split
      · rename_i few
        rw [if_pos rfl, deltaDecodeMorton, if_neg fits, found]
        have none_ : data.length / typeSize - 1 = 0 := by omega
        dsimp only
        rw [none_]
        rfl
      · rename_i some_
        split
        · rfl
        · obtain ⟨length, undone⟩ := deltaPassUndone inverses.subLength inverses.addSub some_
          rw [if_pos rfl, deltaDecodeMorton, length, if_neg fits, found]
          exact undone

theorem subU16x3Length (a b : Bytes) : (subU16x3 a b).length = 6 := by
  simp only [subU16x3, List.length_append, storeLength]

theorem addSubU16x3 {a b : Bytes} (whole : a.length = 6) : addU16x3 (subU16x3 a b) b = a := by
  unfold addU16x3 subU16x3
  rw [loadStore, loadLater, loadLater, loadStore, loadLater, loadOnly, BitVec.sub_add_cancel, BitVec.sub_add_cancel,
    BitVec.sub_add_cancel]
  exact @threeWords 2 a whole

theorem deltaU16x3Undone (data : Bytes) : deltaDecodeU16x3 (deltaEncodeU16x3 data) = data := by
  unfold deltaDecodeU16x3 deltaEncodeU16x3
  dsimp only
  by_cases few : data.length / 6 ≤ 1
  · rw [if_pos few, if_pos few]
  · obtain ⟨length, undone⟩ := @deltaPassUndone data 6 subU16x3 addU16x3 (fun a b _ _ => subU16x3Length a b)
      (fun a b whole _ => addSubU16x3 whole) few
    rw [if_neg few, length, if_neg few]
    exact undone

theorem deltaSingleUndone (data : Bytes) (elementSize : Nat) :
    (deltaEncodeSingle data elementSize).bind (deltaDecodeSingle · elementSize) =
      if elementSize = 0 then none else some data := by
  unfold deltaEncodeSingle
  split
  · rfl
  · rename_i sized
    dsimp only
    split
    · rename_i few
      rw [Option.bind_some, deltaDecodeSingle, if_neg sized]
      exact if_pos few
    · rename_i some_
      split
      · rename_i width
        have inverses := wordInverses elementSize
        obtain ⟨length, undone⟩ := deltaPassUndone inverses.subLength inverses.addSub some_
        rw [Option.bind_some, deltaDecodeSingle, if_neg sized]
        dsimp only
        rw [length, if_neg some_, if_pos width, undone]
      · rename_i width
        rw [Option.bind_some, deltaDecodeSingle, if_neg sized]
        dsimp only
        rw [if_neg some_, if_neg width]

/-! ## The decorrelation undone -/

theorem correlatedBack {elem : Bytes} (whole : elem.length = 6) : correlateElement (decorrelateElement elem) = elem := by
  unfold correlateElement decorrelateElement
  dsimp only
  rw [loadStore, loadLater, loadLater, loadStore, loadLater, loadOnly, BitVec.sub_add_cancel, BitVec.sub_add_cancel]
  exact @threeWords 2 elem whole

theorem decorrelationUndone (data : Bytes) : correlateU16x3 (decorrelateU16x3 data) = data := by
  have room : data.length / 6 * 6 ≤ data.length := Nat.div_mul_le_self ..
  have forth : ∀ b : Bytes, b.length = 6 → (decorrelateElement b).length = 6 := fun b _ => by
    simp only [decorrelateElement, List.length_append, storeLength]
  have back : ∀ b : Bytes, b.length = 6 → (correlateElement b).length = 6 := fun b _ => by
    simp only [correlateElement, List.length_append, storeLength]
  unfold correlateU16x3 decorrelateU16x3
  rw [mappedLength forth room]
  exact mapUndone forth back (fun b whole => correlatedBack whole) room

/-! ## The sorting undone -/

theorem putsLength (ws : List (BitVec 64)) : (ws.flatMap put).length = 8 * ws.length := by
  induction ws with
  | nil => rfl
  | cons w ws ih =>
    rw [List.flatMap_cons, List.length_append, putLength, ih, List.length_cons]
    omega

theorem u64Puts {ws : List (BitVec 64)} {i : Nat} (inside : i < ws.length) (rest : Bytes) :
    u64 (ws.flatMap put ++ rest) i = ws[i] := by
  induction ws generalizing i with
  | nil => cases inside
  | cons w ws ih =>
    rw [List.flatMap_cons, List.append_assoc]
    cases i with
    | zero => exact u64First ..
    | succ i =>
      rw [u64Later]
      exact ih (Nat.lt_of_succ_lt_succ inside)

theorem putsOf {data : Bytes} {count : Nat} (room : 8 * count ≤ data.length) :
    ((List.range count).map (u64 data)).flatMap put = data.take (8 * count) := by
  induction count with
  | zero => rfl
  | succ count ih =>
    have last : put (u64 data count) = (data.drop (8 * count)).take 8 := @storeLoad 8 data count room
    rw [List.range_succ, List.map_append, List.flatMap_append, ih (by omega), List.map_singleton,
      List.flatMap_singleton, last, Nat.mul_succ, List.take_add]

variable {sort : (Nat → Nat → Bool) → List Nat → List Nat}

theorem sortUndone (permutes : ∀ less l, (sort less l).Perm l) (data : Bytes) :
    unsortWithPermutation (sortWithPermutation sort data).1 (sortWithPermutation sort data).2 = data := by
  have room : 8 * (data.length / 8) ≤ data.length := Nat.mul_div_le ..
  unfold sortWithPermutation
  dsimp only
  have permuted := permutes (fun a b => decide (u64 data a < u64 data b)) (List.range (data.length / 8))
  generalize sort (fun a b => decide (u64 data a < u64 data b)) (List.range (data.length / 8)) = perm at permuted ⊢
  generalize counted : data.length / 8 = count at *
  have length : perm.length = count := permuted.length_eq.trans List.length_range
  have whole : ((perm.map (u64 data)).flatMap put ++ data.drop (8 * count)).length = data.length := by
    rw [List.length_append, putsLength, List.length_map, length, List.length_drop]
    omega
  have tail_ : ((perm.map (u64 data)).flatMap put ++ data.drop (8 * count)).drop (8 * count) = data.drop (8 * count) :=
    List.drop_left' (by rw [putsLength, List.length_map, length])
  unfold unsortWithPermutation
  rw [whole, counted]
  by_cases none_ : count = 0
  · rw [if_pos none_]
    subst none_
    rw [List.length_eq_zero_iff.mp length]
    rfl
  · rw [if_neg none_, tail_]
    generalize sortedIs : (perm.map (u64 data)).flatMap put ++ data.drop (8 * count) = sorted
    have below : ∀ i < count, perm.getD i 0 < count := fun i inside => by
      rw [List.getD_eq_getElem?_getD, List.getElem?_eq_getElem (length.symm ▸ inside)]
      exact List.mem_range.mp (permuted.subset (List.getElem_mem _))
    have moved : (List.range count).foldl (restoreAt count sorted perm) (List.replicate count 0) =
        ((List.range count).map fun i => (perm.getD i 0, i)).foldl (move 0 (values sorted count)) (List.replicate count 0) := by
      rw [List.foldl_map]
      refine List.foldl_ext _ _ _ fun restored i member => ?_
      have inside := List.mem_range.mp member
      rw [restoreAt, if_pos (below i inside), move]
      congr 1
      simp [values, inside]
    have placed : (List.range count).foldl (restoreAt count sorted perm) (List.replicate count 0) =
        (List.range count).map (u64 data) := by
      rw [moved]
      refine List.ext_getElem? fun t => ?_
      by_cases inside : t < count
      · have member : t ∈ perm := permuted.symm.subset (List.mem_range.mpr inside)
        obtain ⟨i, low, here⟩ := List.getElem_of_mem member
        have at_ : perm.getD i 0 = t := by
          rw [List.getD_eq_getElem?_getD, List.getElem?_eq_getElem low]
          exact here
        have low' : i < count := length ▸ low
        have found := @movedAt _ 0 (values sorted count) (List.replicate count 0)
          ((List.range count).map fun i => (perm.getD i 0, i)) t i (fun m mem same => by
            obtain ⟨k, kIn, rfl⟩ := List.mem_map.mp mem
            have high : k < perm.length := length.symm ▸ List.mem_range.mp kIn
            have there : perm[k] = perm[i] := by
              rw [here]
              simpa [high] using same
            exact (List.Nodup.getElem_inj_iff (permuted.nodup_iff.mpr List.nodup_range)).mp there)
          (List.mem_map.mpr ⟨i, List.mem_range.mpr low', by rw [at_]⟩) (by rw [List.length_replicate]; exact inside)
        have word : u64 sorted i = u64 data t := by
          rw [← sortedIs, u64Puts (by rw [List.length_map]; exact low), List.getElem_map, here]
        rw [found]
        simp [values, low', inside, word]
      · rw [List.getElem?_eq_none (by rw [movedLength, List.length_replicate]; omega),
          List.getElem?_eq_none (by rw [List.length_map, List.length_range]; omega)]
    rw [placed, putsOf room, List.take_append_drop]

/-! ## The bands restored -/

theorem hasBandBit {mask : BitVec 32} {b : Nat} (inside : b < 32) : hasBand mask b = mask.getLsbD b := by
  have single : ∀ i, (mask &&& 1#32 <<< b).getLsbD i = (mask.getLsbD b && decide (i = b)) := fun i => by
    rw [BitVec.getLsbD_and, BitVec.getLsbD_shiftLeft, BitVec.getLsbD_one]
    by_cases here : i = b
    · subst here
      simp [inside]
    · have apart : i - b = 0 → i < b := by omega
      by_cases low : i < b
      · simp [here, low]
      · simp [here, low]
        omega
  unfold hasBand
  by_cases set : mask.getLsbD b = true
  · rw [set]
    refine decide_eq_true fun zero => ?_
    have bit := single b
    rw [zero, set] at bit
    simp at bit
  · have clear : mask.getLsbD b = false := by simpa using set
    rw [clear]
    refine decide_eq_false (not_not_intro (BitVec.eq_of_getLsbD_eq fun i _ => ?_))
    rw [single, clear]
    simp

theorem scanned {elementCount : Nat} {shuffled : Bytes} {m : Nat} (few : m ≤ 32) :
    let found := (List.range m).foldl (scanBand elementCount shuffled) (0, [])
    (∀ b, found.1.getLsbD b = (decide (b < m) && constantBand elementCount shuffled b)) ∧
      found.2 = ((List.range m).filter (constantBand elementCount shuffled)).map fun b =>
        (block elementCount shuffled b).getD 0 0 := by
  induction m with
  | zero => exact ⟨fun b => by simp, rfl⟩
  | succ m ih =>
    obtain ⟨bits, values⟩ := ih (by omega)
    intro found
    have step : found = scanBand elementCount shuffled
        ((List.range m).foldl (scanBand elementCount shuffled) (0, [])) m := by
      unfold found
      rw [List.range_succ, List.foldl_append]
      rfl
    rw [step, scanBand]
    split
    · rename_i constant
      refine ⟨fun b => ?_, ?_⟩
      · rw [BitVec.getLsbD_or, bits, BitVec.getLsbD_shiftLeft, BitVec.getLsbD_one]
        rcases Nat.lt_trichotomy b m with less | same | more
        · have before : b < m + 1 := by omega
          simp [less, before]
        · subst same
          have inside : b < 32 := by omega
          simp [constant, inside]
        · have beyond : ¬b < m + 1 := by omega
          have later : ¬b < m := by omega
          have apart : ¬b - m = 0 := by omega
          simp [beyond, later, apart]
      · dsimp only
        rw [values, List.range_succ, List.filter_append, List.map_append]
        simp [constant]
    · rename_i varied
      have varied : constantBand elementCount shuffled m = false := by simpa using varied
      refine ⟨fun b => ?_, ?_⟩
      · rw [bits]
        rcases Nat.lt_trichotomy b m with less | same | more
        · have before : b < m + 1 := by omega
          simp [less, before]
        · subst same
          simp [varied]
        · have beyond : ¬b < m + 1 := by omega
          have later : ¬b < m := by omega
          simp [beyond, later]
      · rw [values, List.range_succ, List.filter_append]
        simp [varied]

theorem constantRepeated {elementCount b : Nat} {shuffled : Bytes} (room : (b + 1) * elementCount ≤ shuffled.length)
    (constant : constantBand elementCount shuffled b = true) :
    List.replicate elementCount ((block elementCount shuffled b).getD 0 0) = block elementCount shuffled b := by
  refine (List.eq_replicate_iff.mpr ⟨blockLength room, fun a member => ?_⟩).symm
  simpa using List.all_eq_true.mp constant a member

-- What is still to be read is what the bands not yet restored were compacted to.
structure Restored (stride elementCount : Nat) (shuffled compacted constantValues : Bytes) (k : Nat) (s : Restoring) :
    Prop where
  length : s.shuffled.length = shuffled.length
  agree : ∀ j < k, block elementCount s.shuffled j = block elementCount shuffled j
  source : compacted.drop s.srcOffset =
    ((List.range' k (stride - k)).filter fun b => !constantBand elementCount shuffled b).flatMap
      (block elementCount shuffled) ++ shuffled.drop (stride * elementCount)
  constants : constantValues.drop s.constIdx =
    ((List.range' k (stride - k)).filter (constantBand elementCount shuffled)).map fun b =>
      (block elementCount shuffled b).getD 0 0

theorem bandRestored {stride elementCount k : Nat} {shuffled compacted constantValues : Bytes} {mask : BitVec 32}
    {s : Restoring} (few : stride ≤ 32) (inside : k < stride) (room : stride * elementCount ≤ shuffled.length)
    (bits : ∀ b < stride, mask.getLsbD b = constantBand elementCount shuffled b)
    (restored : Restored stride elementCount shuffled compacted constantValues k s) :
    Restored stride elementCount shuffled compacted constantValues (k + 1)
      (restoreBand elementCount compacted mask constantValues s k) := by
  obtain ⟨length, agree, source, constants⟩ := restored
  have here : (k + 1) * elementCount ≤ shuffled.length := Nat.le_trans (Nat.mul_le_mul_right _ inside) room
  have place : (k + 1) * elementCount ≤ s.shuffled.length := length.symm ▸ here
  have whole := blockLength here
  have split : List.range' k (stride - k) = k :: List.range' (k + 1) (stride - (k + 1)) := by
    have more : stride - k = stride - (k + 1) + 1 := by omega
    rw [more, List.range'_succ]
  have kept : ∀ b, b = block elementCount shuffled k → (∀ j < k + 1,
      block elementCount (setBlock elementCount s.shuffled k b) j = block elementCount shuffled j) := by
    rintro b rfl j before
    by_cases same : j = k
    · rw [same, blockSet place whole]
    · rw [blockOther same place whole, agree j (by omega)]
  rw [restoreBand, hasBandBit (by omega), bits k inside]
  rw [split] at source constants
  split
  · rename_i constant
    rw [List.filter_cons_of_neg (by rw [constant]; decide)] at source
    rw [List.filter_cons_of_pos constant, List.map_cons] at constants
    have first : constantValues.getD s.constIdx 0 = (block elementCount shuffled k).getD 0 0 := by
      have head : (constantValues.drop s.constIdx)[0]? = some ((block elementCount shuffled k).getD 0 0) := by
        rw [constants]
        rfl
      rw [List.getElem?_drop, Nat.add_zero] at head
      rw [List.getD_eq_getElem?_getD, head]
      rfl
    have band := (congrArg (List.replicate elementCount) first).trans (constantRepeated here constant)
    refine ⟨(setBlockLength place (by rw [band]; exact whole)).trans length, kept _ band, source, ?_⟩
    dsimp only
    rw [← List.drop_drop, constants]
    rfl
  · rename_i varied
    rw [List.filter_cons_of_pos (by simpa using varied), List.flatMap_cons, List.append_assoc] at source
    rw [List.filter_cons_of_neg (by simpa using varied)] at constants
    have band : (compacted.drop s.srcOffset).take elementCount = block elementCount shuffled k := by
      rw [source, List.take_left' whole]
    refine ⟨(setBlockLength place (by rw [band]; exact whole)).trans length, kept _ band, ?_, constants⟩
    dsimp only
    rw [← List.drop_drop, source, List.drop_left' whole]

theorem bandsRestored {stride elementCount : Nat} {shuffled compacted constantValues : Bytes} {mask : BitVec 32}
    {s : Restoring} (few : stride ≤ 32) (room : stride * elementCount ≤ shuffled.length)
    (bits : ∀ b < stride, mask.getLsbD b = constantBand elementCount shuffled b)
    (start : Restored stride elementCount shuffled compacted constantValues 0 s) :
    Restored stride elementCount shuffled compacted constantValues stride
      ((List.range stride).foldl (restoreBand elementCount compacted mask constantValues) s) := by
  have run : ∀ k ≤ stride, Restored stride elementCount shuffled compacted constantValues k
      ((List.range k).foldl (restoreBand elementCount compacted mask constantValues) s) := by
    intro k
    induction k with
    | zero => exact fun _ => start
    | succ k ih =>
      intro inside
      rw [List.range_succ, List.foldl_append]
      exact bandRestored few inside room bits (ih (by omega))
  exact run stride (Nat.le_refl _)

theorem blocksAgree {count size : Nat} {p q : Bytes} (room : count * size ≤ p.length) (same : p.length = q.length)
    (agree : ∀ j < count, block size p j = block size q j) : p.take (count * size) = q.take (count * size) := by
  refine List.ext_getElem? fun i => ?_
  by_cases inside : i < count * size
  · have positive : 0 < size := Nat.pos_of_ne_zero fun none_ => by
      rw [none_, Nat.mul_zero] at inside
      exact Nat.not_lt_zero i inside
    have low := Nat.mod_lt i positive
    have place : i / size * size + i % size = i := by
      rw [Nat.mul_comm]
      exact Nat.div_add_mod i size
    have equal := congrArg (·[i % size]?) (agree (i / size) (Nat.div_lt_of_lt_mul (Nat.mul_comm count size ▸ inside)))
    simp only [blockAt low, place] at equal
    rw [List.getElem?_take_of_lt inside, List.getElem?_take_of_lt inside, equal]
  · rw [List.getElem?_eq_none (by rw [List.length_take]; omega), List.getElem?_eq_none (by rw [List.length_take]; omega)]

theorem bandsUndone {shuffled target : Bytes} (typeSize componentCount : Nat) (sized : target.length = shuffled.length) :
    restoreBands (detectConstantBands shuffled typeSize componentCount) target typeSize componentCount = shuffled := by
  unfold detectConstantBands
  dsimp only
  split
  · exact if_neg (not_not_intro rfl)
  · rename_i filled
    split
    · exact if_neg (not_not_intro rfl)
    · rename_i few
      split
      · exact if_neg (not_not_intro rfl)
      · rename_i some_
        have total := Nat.div_add_mod shuffled.length (typeSize * componentCount)
        obtain ⟨bits, values⟩ := @scanned (shuffled.length / (typeSize * componentCount)) shuffled
          (typeSize * componentCount) (by omega)
        refine (if_pos some_).trans ?_
        rw [restoreConstantBands, sized, if_neg filled]
        dsimp only
        generalize shuffled.length / (typeSize * componentCount) = elementCount at *
        generalize (List.range (typeSize * componentCount)).foldl (scanBand elementCount shuffled) (0, []) = found at *
        generalize typeSize * componentCount = stride at *
        have marked : ∀ b < stride, found.1.getLsbD b = constantBand elementCount shuffled b := fun b inside => by
          rw [bits, decide_eq_true inside, Bool.true_and]
        have kept : ((List.range stride).filter fun b => !hasBand found.1 b) =
            (List.range stride).filter fun b => !constantBand elementCount shuffled b := by
          refine List.filter_congr fun b member => ?_
          have inside := List.mem_range.mp member
          rw [hasBandBit (by omega), marked b inside]
        have start : Restored stride elementCount shuffled (((List.range stride).filter fun b =>
            !hasBand found.1 b).flatMap (block elementCount shuffled) ++ shuffled.drop (stride * elementCount)) found.2 0
            ⟨target, 0, 0⟩ := by
          refine ⟨sized, fun j before => absurd before (Nat.not_lt_zero j), ?_, ?_⟩
          · rw [kept, List.drop_zero, Nat.sub_zero, List.range_eq_range']
          · rw [List.drop_zero, values, Nat.sub_zero, List.range_eq_range']
        obtain ⟨length, agree, source, _⟩ := bandsRestored (by omega) (by omega) marked start
        have rest : (shuffled.drop (stride * elementCount)).take (shuffled.length % stride) =
            shuffled.drop (stride * elementCount) := List.take_of_length_le (by rw [List.length_drop]; omega)
        rw [source, Nat.sub_self]
        refine (congrArg₂ _ (blocksAgree (by omega) length agree) rest).trans ?_
        exact List.take_append_drop ..

/-! ## All transforms -/

theorem opsWidths (typeSize : Nat) : (getMortonOps typeSize).isSome = true ↔ typeSize ∈ [4, 8, 16, 24] := by
  unfold getMortonOps
  split <;> simp_all

-- Each transform is undone by its inverse, or it reports a failure and has left its buffer as it was.
theorem transformsUndone (permutes : ∀ less l, (sort less l).Perm l) :
    (∀ (src dst back : Bytes) (ts cc : Nat), dst.length = src.length → back.length = src.length →
      byteUnshuffle (byteShuffle src dst ts cc) back ts cc = src) ∧
    (∀ (data : Bytes) (typeSize : Nat),
      if (deltaEncodeMorton data typeSize).1 then deltaDecodeMorton (deltaEncodeMorton data typeSize).2 typeSize = data
      else (deltaEncodeMorton data typeSize).2 = data) ∧
    (∀ typeSize : Nat, (getMortonOps typeSize).isSome = true ↔ typeSize ∈ [4, 8, 16, 24]) ∧
    (∀ (typeSize : Nat) (ops : MortonOps), getMortonOps typeSize = some ops → Inverses typeSize ops.sub ops.add) ∧
    (∀ data : Bytes, deltaDecodeU16x3 (deltaEncodeU16x3 data) = data) ∧
    (∀ data : Bytes, correlateU16x3 (decorrelateU16x3 data) = data) ∧
    (∀ (data : Bytes) (elementSize : Nat), (deltaEncodeSingle data elementSize).bind (deltaDecodeSingle · elementSize) =
      if elementSize = 0 then none else some data) ∧
    (∀ data : Bytes, ∀ coded ∈ [sortWithPermutationU16 sort data, sortWithPermutationU32 sort data],
      if coded.1 then unsortWithPermutation coded.2.1 coded.2.2 = data else coded.2.1 = data) ∧
    ∀ (shuffled target : Bytes) (typeSize componentCount : Nat), target.length = shuffled.length →
      restoreBands (detectConstantBands shuffled typeSize componentCount) target typeSize componentCount = shuffled := by
  refine ⟨fun src dst back ts cc => shuffleUndone, deltaMortonUndone, opsWidths, fun typeSize ops => opsInverses, deltaU16x3Undone,
    decorrelationUndone, deltaSingleUndone, fun data coded member => ?_,
    fun shuffled target typeSize componentCount => bandsUndone typeSize componentCount⟩
  have sorted := sortUndone permutes data
  rcases List.mem_cons.mp member with rfl | last
  · unfold sortWithPermutationU16
    dsimp only
    split
    · rfl
    · exact sorted
  · cases List.mem_singleton.mp last
    unfold sortWithPermutationU32
    split
    · rfl
    · exact sorted

def insertionSorted (less : Nat → Nat → Bool) (l : List Nat) : List Nat := l.insertionSort fun a b => less b a = false

-- Two numbers of two words whose difference borrows from the upper one.
def borrowing : Bytes := put 0xfffffffffffffffe ++ put 1 ++ put 2 ++ put 2

theorem transformsUndoneSorted : sortWithPermutationU32 insertionSorted (put 3 ++ put 1) = (true, put 1 ++ put 3, [1, 0]) ∧
    unsortWithPermutation (put 1 ++ put 3) [1, 0] = put 3 ++ put 1 ∧
    deltaEncodeMorton borrowing 16 = (true, put 0xfffffffffffffffe ++ put 1 ++ put 4 ++ put 0) ∧
    deltaDecodeMorton (put 0xfffffffffffffffe ++ put 1 ++ put 4 ++ put 0) 16 = borrowing := by
  have coded : sortWithPermutationU32 insertionSorted (put 3 ++ put 1) = (true, put 1 ++ put 3, [1, 0]) := by decide
  have delta : deltaEncodeMorton borrowing 16 = (true, put 0xfffffffffffffffe ++ put 1 ++ put 4 ++ put 0) := by decide
  obtain ⟨_, deltas, _, _, _, _, _, sorts, _⟩ := @transformsUndone insertionSorted fun less l => List.perm_insertionSort _ l
  have undone := sorts (put 3 ++ put 1) _ (List.mem_cons_of_mem _ (List.mem_singleton.mpr rfl))
  have restored := deltas borrowing 16
  rw [coded] at undone
  rw [delta] at restored
  exact ⟨coded, undone, delta, restored⟩

end Dewfall.Preprocess
