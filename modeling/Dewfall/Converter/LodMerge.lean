import Dewfall.Converter.LodQuantize

/-! What a LOD unit holds of the points under its node, and when it is what its cells promise. All reads
succeed; how the children were chosen is not treated. -/
namespace Dewfall.LodMerge
open General.Representatives Morton MortonDigits LodQuantize
open MortonTree (digits typeWide)
open StorageMap (InputId)
open PointSplitter (Subset)

variable (offsets : RandomOffsets) (reads : InputId → Option SourceUnit) (node : LodNode)

-- A point of a child: its unit, its place there, and its code.
inductive Source : InputId → Nat → Code .m192 → Prop where
  | point {p u index c} (subset : p ∈ node.subsets) (read : reads p.inputId = some u) (low : Subset.first p ≤ index)
      (high : index < Subset.first p + Subset.size p u) (here : u.codes[index]? = some c) :
      Source p.inputId index (absolute u c)

structure WellFormed (carried : InputId → Bool) : Prop where
  lod : node.lod < 64
  filled : node.subsets ≠ []
  units : ∀ p ∈ node.subsets, ∃ u, reads p.inputId = some u ∧ Stored u (carried p.inputId) ∧
    Subset.first p + Subset.size p u ≤ u.codes.length
  inside : ∀ id index a, Source reads node id index a → cell node.lod a = cell node.lod node.nodeMin

-- No child unit is without points.
def Occupied : Prop := ∀ p ∈ node.subsets, ∀ u, reads p.inputId = some u → 0 < Subset.size p u

def entriesOf (p : Subset) : List (Entry node.format) :=
  match reads p.inputId with
  | none => []
  | some u => emitted offsets node.format p.inputId (subsetMin node.lod u.mortonMin) (window p u) (Subset.first p)
      (lodQuantizeMaskWidth node.lod)

-- What is gathered of units that have points.
def entries : List (Entry node.format) := node.subsets.flatMap (entriesOf offsets reads node)

-- A widened code has all its digits.
def Keeps (carried : InputId → Bool) : Prop :=
  ∀ p ∈ node.subsets, ∀ u, reads p.inputId = some u → Kept u (carried p.inputId) node.format node.lod

-- The bits above the whole digits of the format are clear, or all units bring them, or none does.
def Framed (carried : InputId → Bool) : Prop :=
  (∀ i, node.format.capacity ≤ i → i < node.format.total → node.nodeMin.bit i = false) ∨
    ∃ all, ∀ p ∈ node.subsets, ∀ u, reads p.inputId = some u → carries u (carried p.inputId) node.format = all

-- No two points share a cell of the narrowest mask.
def Sparse : Prop := ∀ id index a id' index' a', Source reads node id index a → Source reads node id' index' a' →
  cell 0 a = cell 0 a' → a = a'

def absoluteOf (e : Entry node.format) : Code .m192 := upcast e.morton node.nodeMin

structure GoodLod (width : Nat) (points : List (Entry node.format)) : Prop where
  rising : points.Pairwise fun a b => less a.morton b.morton = true ∧
    less (absoluteOf node a) (absoluteOf node b) = true
  named : ∀ e ∈ points, Source reads node e.id e.index (absoluteOf node e)
  cells : ∀ id index a, Source reads node id index a →
    ∃! e, e ∈ points ∧ cell width (absoluteOf node e) = cell width a
  clamped : ∀ p ∈ node.subsets, ∀ u, reads p.inputId = some u → ∀ c ∈ u.codes, ∀ c' ∈ u.codes,
    (exceeds (min (lodQuantizeMaskWidth node.lod) (maxMaskForType u.format)) c c' = true ↔
      cell (lodQuantizeMaskWidth node.lod) (absolute u c) < cell (lodQuantizeMaskWidth node.lod) (absolute u c'))
  kept : node.adaptiveSampling = false → lodQuantizeMaskWidth node.lod = 0 → ∀ id index a,
    Source reads node id index a → ∃ e ∈ points, absoluteOf node e = a

variable {offsets reads node} {carried : InputId → Bool} {width : Nat}

/-! ## Widths -/

theorem maskWidthLe : lodQuantizeMaskWidth node.lod ≤ node.lod := by
  unfold lodQuantizeMaskWidth
  split <;> omega

theorem baseWidth (small : node.lod < 64) : lodQuantizeMaskWidth node.lod ≤ maxMaskForType node.format := by
  have wide : node.lod < digits node.format := typeWide small
  have narrow : lodQuantizeMaskWidth node.lod ≤ 54 := by
    unfold lodQuantizeMaskWidth lodQuantizeFullDetailLevel
    split <;> omega
  have least : lodQuantizeMaskWidth node.lod ≤ node.lod := maskWidthLe
  revert wide
  cases node.format <;> simp [maxMaskForType, digits, Format.total, Format.capacity, Format.bits, Format.count]
  all_goals omega

theorem widenLe {t : Format} {target : Nat} {first : Entry t} {rest : List (Entry t)} {more : Nat} :
    width ≤ widen target first rest more width ∧ widen target first rest more width ≤ width + more := by
  induction more generalizing width with
  | zero => exact ⟨Nat.le_refl _, Nat.le_refl _⟩
  | succ more ih =>
    rw [widen]
    split
    · omega
    · have next := @ih (width + 1)
      omega

theorem mergeWidthLe (small : node.lod < 64) (sorted : List (Entry node.format)) :
    lodQuantizeMaskWidth node.lod ≤ mergeWidth node sorted ∧ mergeWidth node sorted ≤ maxMaskForType node.format := by
  have base := baseWidth small
  unfold mergeWidth
  split
  · exact ⟨Nat.le_refl _, base⟩
  · rename_i first rest
    split
    · have bounds := @widenLe (lodQuantizeMaskWidth node.lod) node.format
        (max 1 ((node.childData.map PointSplitter.Collection.pointCount).sum / 4)) first rest
        (maxMaskForType node.format - lodQuantizeMaskWidth node.lod)
      dsimp only
      omega
    · exact ⟨Nat.le_refl _, base⟩

theorem widthFits {t : Format} (le : width ≤ maxMaskForType t) : width < digits t ∧ width < 63 := by
  have fits : min width (maxMaskForType t) < digits t ∧ min width (maxMaskForType t) < 63 := clampFits width
  rwa [Nat.min_eq_left le] at fits

/-! ## Entries -/

-- An entry stands for a source point and has the digits of its code.
structure Entered (reads : InputId → Option SourceUnit) (node : LodNode) (e : Entry node.format) (a : Code .m192) : Prop where
  source : Source reads node e.id e.index a
  code : absoluteOf node e = a
  low : value e.morton % 8 ^ digits node.format = value a % 8 ^ digits node.format
  high : value a / 8 ^ digits node.format = value node.nodeMin / 8 ^ digits node.format

theorem deepFormat (small : node.lod < 64) : 3 * (node.lod + 1) ≤ node.format.capacity := by
  have wide : node.lod < digits node.format := typeWide small
  have capacity := capacityDigits node.format
  omega

theorem sourceHigh (wellFormed : WellFormed reads node carried) {id index a} (source : Source reads node id index a) {i : Nat}
    (high : node.format.capacity ≤ i) : a.bit i = node.nodeMin.bit i :=
  bitsOfHigh (wellFormed.inside id index a source) ((deepFormat wellFormed.lod).trans high)

theorem carriesLe {t : Format} {u : SourceUnit} {own : Bool} (carried : carries u own t = true) :
    u.format.capacity ≤ t.capacity := by
  simp only [carries, Bool.or_eq_true, decide_eq_true_eq, Bool.and_eq_true] at carried
  rcases carried with narrow | ⟨same, _⟩
  · revert narrow
    cases t <;> cases u.format <;> decide
  · rw [same]

-- The bits a cast code has above the whole digits of its format.
theorem castSpare (wellFormed : WellFormed reads node carried) {p u index c} (subset : p ∈ node.subsets)
    (read : reads p.inputId = some u) (low : Subset.first p ≤ index) (high : index < Subset.first p + Subset.size p u)
    (here : u.codes[index]? = some c) {i : Nat} (above : node.format.capacity ≤ i) (held : i < node.format.total) :
    (Morton.cast node.format c (subsetMin node.lod u.mortonMin)).bit i =
      (carries u (carried p.inputId) node.format && node.nodeMin.bit i) := by
  obtain ⟨_, read', stored, _⟩ := wellFormed.units p subset
  cases read.symm.trans read'
  have mem : c ∈ u.codes := List.mem_of_getElem? here
  have deep := deepFormat wellFormed.lod
  rw [castHigh stored wellFormed.lod (by omega) mem above held]
  cases bring : carries u (carried p.inputId) node.format with
  | false => rfl
  | true =>
    have source : Source reads node p.inputId index (absolute u c) := .point subset read low high here
    have least := carriesLe bring
    rw [← sourceHigh wellFormed source above, absoluteBit stored mem, if_neg (by omega)]

theorem castEntered (wellFormed : WellFormed reads node carried) (keeps : Keeps reads node carried)
    {p u index c} (subset : p ∈ node.subsets) (read : reads p.inputId = some u)
    (low : Subset.first p ≤ index) (high : index < Subset.first p + Subset.size p u) (here : u.codes[index]? = some c) :
    Entered reads node ⟨Morton.cast node.format c (subsetMin node.lod u.mortonMin), index, p.inputId⟩ (absolute u c) := by
  obtain ⟨_, read', stored, _⟩ := wellFormed.units p subset
  cases read.symm.trans read'
  have source : Source reads node p.inputId index (absolute u c) := .point subset read low high here
  have digitsLow : ∀ i, i < node.format.capacity →
      (Morton.cast node.format c (subsetMin node.lod u.mortonMin)).bit i = (absolute u c).bit i :=
    fun i inside => castLow stored (keeps p subset u read) wellFormed.lod (List.mem_of_getElem? here) inside
  refine ⟨source, ?_, ?_, ?_⟩
  · have narrower : node.format.total ≤ Format.total .m192 := by cases node.format <;> decide
    apply valueInj
    apply Nat.eq_of_testBit_eq
    intro i
    rw [valueBit, valueBit]
    by_cases inside : i < Format.total .m192
    · rw [absoluteOf, upcastBit _ _ narrower inside, if_neg (by decide)]
      by_cases below : i < node.format.capacity
      · rw [digitsLow i below, decide_eq_false (Nat.not_le_of_lt below), Bool.false_and, Bool.or_false]
      · have above := Nat.le_of_not_lt below
        rw [decide_eq_true above, Bool.true_and, sourceHigh wellFormed source above]
        by_cases held : i < node.format.total
        · rw [castSpare wellFormed subset read low high here above held]
          cases carries u (carried p.inputId) node.format <;> simp
        · rw [bitBeyond (Nat.le_of_not_lt held), Bool.false_or]
    · rw [bitBeyond (Nat.le_of_not_lt inside), bitBeyond (Nat.le_of_not_lt inside)]
  · exact lowDigits fun i inside => digitsLow i (capacityDigits node.format ▸ inside)
  · exact highDigits fun i inside => sourceHigh wellFormed source (capacityDigits node.format ▸ inside)

theorem windowAt {p : Subset} {u : SourceUnit} {i : Nat} {c : Code u.format} :
    (window p u)[i]? = some c ↔ i < Subset.size p u ∧ u.codes[Subset.first p + i]? = some c := by
  rw [window, List.getElem?_take]
  split
  · rename_i inside
    simp [List.getElem?_drop, inside]
  · rename_i outside
    simp [outside]

theorem windowEmpty {p : Subset} {u : SourceUnit} (room : Subset.first p + Subset.size p u ≤ u.codes.length) :
    (window p u).isEmpty = true ↔ Subset.size p u = 0 := by
  rw [List.isEmpty_iff_length_eq_zero, window, List.length_take, List.length_drop]
  omega

theorem collectionSome {lod : Nat} : ∀ {parts : List Subset},
    (∀ p ∈ parts, ∀ u, reads p.inputId = some u → (window p u).isEmpty = false) → node.lod = lod →
    quantizePointsCollection offsets reads node.format lod parts = some (parts.flatMap (entriesOf offsets reads node))
  | [], _, _ => rfl
  | p :: rest, filled, same => by
    have head : quantizeSubset offsets reads node.format lod p = some (entriesOf offsets reads node p) := by
      rw [quantizeSubset, entriesOf]
      cases read : reads p.inputId with
      | none => rfl
      | some u =>
        dsimp only
        rw [findIndicesToQuantize, filled p List.mem_cons_self u read, same]
        rfl
    have tail := collectionSome (fun q mem => filled q (List.mem_cons_of_mem _ mem)) same
    rw [quantizePointsCollection, head, Option.bind_some, tail]
    rfl

-- An empty window anywhere is read beyond its end.
theorem collectionNone {t : Format} {lod : Nat} {p : Subset} {u : SourceUnit} (read : reads p.inputId = some u)
    (nothing : (window p u).isEmpty = true) : ∀ {parts : List Subset}, p ∈ parts →
    quantizePointsCollection offsets reads t lod parts = none
  | q :: rest, mem => by
    rw [quantizePointsCollection]
    rcases List.mem_cons.mp mem with rfl | later
    · have head : quantizeSubset offsets reads t lod p = none := by
        rw [quantizeSubset, read]
        dsimp only
        rw [findIndicesToQuantize, nothing]
        rfl
      rw [head]
      rfl
    · rw [collectionNone read nothing later]
      cases quantizeSubset offsets reads t lod q <;> rfl

theorem gatheredSome (wellFormed : WellFormed reads node carried) (occupied : Occupied reads node) :
    gathered offsets reads node = some (entries offsets reads node) := by
  refine collectionSome (fun p subset u read => ?_) rfl
  obtain ⟨_, read', _, room⟩ := wellFormed.units p subset
  cases read.symm.trans read'
  rw [Bool.eq_false_iff]
  intro nothing
  exact absurd ((windowEmpty room).mp nothing) (Nat.ne_of_gt (occupied p subset u read))

theorem gatheredOccupied (wellFormed : WellFormed reads node carried) {all : List (Entry node.format)}
    (made : gathered offsets reads node = some all) : Occupied reads node := by
  intro p subset u read
  obtain ⟨_, read', _, room⟩ := wellFormed.units p subset
  cases read.symm.trans read'
  by_contra none_
  have nothing := (windowEmpty room).mpr (Nat.eq_zero_of_not_pos none_)
  have failed : gathered offsets reads node = none := collectionNone read nothing subset
  rw [failed] at made
  cases made

theorem gatheredMem {e : Entry node.format} (mem : e ∈ entries offsets reads node) :
    ∃ p u index c, p ∈ node.subsets ∧ reads p.inputId = some u ∧ Subset.first p ≤ index ∧
      index < Subset.first p + Subset.size p u ∧ u.codes[index]? = some c ∧
      e = ⟨Morton.cast node.format c (subsetMin node.lod u.mortonMin), index, p.inputId⟩ := by
  obtain ⟨p, subset, mem⟩ := List.mem_flatMap.mp mem
  rw [entriesOf] at mem
  split at mem
  · cases mem
  · rename_i u read
    obtain ⟨i, _, found⟩ := List.mem_filterMap.mp mem
    obtain ⟨c, at_, rfl⟩ := Option.map_eq_some_iff.mp found
    obtain ⟨inside, here⟩ := windowAt.mp at_
    exact ⟨p, u, _, c, subset, read, Nat.le_add_right _ _, by omega, here, rfl⟩

theorem gatheredEntered (wellFormed : WellFormed reads node carried) (keeps : Keeps reads node carried)
    {e : Entry node.format} (mem : e ∈ entries offsets reads node) : Entered reads node e (absoluteOf node e) := by
  obtain ⟨p, u, index, c, subset, read, low, high, here, rfl⟩ := gatheredMem mem
  have entered := castEntered wellFormed keeps subset read low high here
  rw [entered.code]
  exact entered

theorem gatheredFrame (wellFormed : WellFormed reads node carried) (framed : Framed reads node carried)
    {e e' : Entry node.format} (mem : e ∈ entries offsets reads node) (mem' : e' ∈ entries offsets reads node) :
    value e.morton / 8 ^ digits node.format = value e'.morton / 8 ^ digits node.format := by
  obtain ⟨p, u, index, c, subset, read, low, high, here, rfl⟩ := gatheredMem mem
  obtain ⟨p', u', index', c', subset', read', low', high', here', rfl⟩ := gatheredMem mem'
  refine highDigits fun i above => ?_
  rw [capacityDigits] at above
  by_cases held : i < node.format.total
  · rw [castSpare wellFormed subset read low high here above held, castSpare wellFormed subset' read' low' high' here' above held]
    rcases framed with clear | ⟨all, same⟩
    · rw [clear i above held, Bool.and_false, Bool.and_false]
    · rw [same p subset u read, same p' subset' u' read']
  · rw [bitBeyond (Nat.le_of_not_lt held), bitBeyond (Nat.le_of_not_lt held)]

-- Entries lie in the order and in the cells of the codes they stand for.
theorem entryCell (wellFormed : WellFormed reads node carried) (keeps : Keeps reads node carried)
    (framed : Framed reads node carried)
    {x : Nat} (le : x ≤ digits node.format) {e e' : Entry node.format} (mem : e ∈ entries offsets reads node)
    (mem' : e' ∈ entries offsets reads node) : value e.morton / 8 ^ x ≤ value e'.morton / 8 ^ x ↔
      value (absoluteOf node e) / 8 ^ x ≤ value (absoluteOf node e') / 8 ^ x := by
  have entered := gatheredEntered wellFormed keeps mem
  have entered' := gatheredEntered wellFormed keeps mem'
  exact cellLe le (gatheredFrame wellFormed framed mem mem') (entered.high.trans entered'.high.symm) entered.low entered'.low

/-! ## Runs of one unit -/

theorem unitSorted {u : SourceUnit} {own : Bool} (stored : Stored u own) :
    u.codes.Pairwise fun a b => cell width a ≤ cell width b := by
  refine stored.rising.imp fun {a b} order => ?_
  refine Nat.div_le_div_right (Nat.le_of_not_lt fun more => ?_)
  rw [(lessValue b a).mpr more] at order
  cases order

theorem runRepresents {u : SourceUnit} {own : Bool} (stored : Stored u own) (p : Subset) :
    Represents (cell (min width (maxMaskForType u.format))) (window p u) 0
      (representatives (exceeds (min width (maxMaskForType u.format))) (randomPick offsets) (window p u)) := by
  have inside : (window p u).Sublist u.codes := (List.take_sublist _ _).trans (List.drop_sublist _ _)
  have fits : min width (maxMaskForType u.format) < digits u.format ∧ min width (maxMaskForType u.format) < 63 := clampFits width
  refine representsAll ((unitSorted stored).sublist inside) (fun a _ c _ _ => exceedsCell fits.1 fits.2)
    fun start size positive => ?_
  exact offsets.inside _ _ positive

-- Every cell that the points of the children occupy has an entry.
theorem gatheredCovers (wellFormed : WellFormed reads node carried) (keeps : Keeps reads node carried)
    {id index a} (source : Source reads node id index a) :
    ∃ e ∈ entries offsets reads node, cell (lodQuantizeMaskWidth node.lod) (absoluteOf node e) =
      cell (lodQuantizeMaskWidth node.lod) a := by
  obtain ⟨subset, read, low, high, here⟩ := source
  rename_i p u c
  obtain ⟨_, read', stored, _⟩ := wellFormed.units p subset
  cases read.symm.trans read'
  have small : lodQuantizeMaskWidth node.lod < 63 := (widthFits (baseWidth wellFormed.lod)).2
  have place : (window p u)[index - Subset.first p]? = some c :=
    windowAt.mpr ⟨by omega, by rw [Nat.add_sub_cancel' low]; exact here⟩
  have run : Represents (cell (min (lodQuantizeMaskWidth node.lod) (maxMaskForType u.format))) (window p u) 0
      (representatives (exceeds (min (lodQuantizeMaskWidth node.lod) (maxMaskForType u.format))) (randomPick offsets)
        (window p u)) :=
    runRepresents stored p
  obtain ⟨j, picked, c', at_, same⟩ := run.covers _ c (Nat.zero_le _) place
  obtain ⟨inside, here'⟩ := windowAt.mp at_
  have entered := castEntered wellFormed keeps subset read (Nat.le_add_right _ j) (by omega) here'
  have mem : c ∈ u.codes := List.mem_of_getElem? here
  have mem' : c' ∈ u.codes := List.mem_of_getElem? here'
  refine ⟨⟨Morton.cast node.format c' (subsetMin node.lod u.mortonMin), Subset.first p + j, p.inputId⟩, ?_, ?_⟩
  · refine List.mem_flatMap.mpr ⟨p, subset, ?_⟩
    rw [entriesOf, read]
    exact List.mem_filterMap.mpr ⟨j, picked, by rw [at_]; rfl⟩
  · rw [entered.code]
    exact Nat.le_antisymm ((clampedCell stored small mem' mem).mp (Nat.le_of_eq same))
      ((clampedCell stored small mem mem').mp (Nat.le_of_eq same.symm))

/-! ## The merge -/

theorem chosenMem {t : Format} {sorted : List (Entry t)} {e : Entry t} : e ∈ chosen width sorted ↔
    ∃ j ∈ representatives (starts width) medianPick sorted, sorted[j]? = some e := List.mem_filterMap

theorem mergeRepresents {t : Format} {sorted : List (Entry t)} (le : width ≤ maxMaskForType t)
    (rising : sorted.Pairwise fun a b => less b.morton a.morton = false) :
    Represents (fun e : Entry t => cell width e.morton) sorted 0 (representatives (starts width) medianPick sorted) := by
  have fits := widthFits le
  refine representsAll (rising.imp fun {a b} order => ?_) (fun a _ c _ _ => exceedsCell fits.1 fits.2)
    fun start size positive => ?_
  · refine Nat.div_le_div_right (Nat.le_of_not_lt fun more => ?_)
    rw [(lessValue _ _).mpr more] at order
    cases order
  · exact Nat.div_lt_self positive (by decide)

theorem chosenRising {t : Format} {sorted : List (Entry t)} (le : width ≤ maxMaskForType t)
    (rising : sorted.Pairwise fun a b => less b.morton a.morton = false) :
    (chosen width sorted).Pairwise fun a b => cell width a.morton < cell width b.morton := by
  rw [chosen, List.pairwise_filterMap]
  refine (mergeRepresents le rising).rising.imp fun {i j} apart a at_ b at_' => ?_
  exact apart a b at_ at_'

theorem cellLtValue {a b : Code f} (less_ : cell width a < cell width b) : less a b = true :=
  (lessValue a b).mpr (Nat.lt_of_not_le fun le => Nat.not_lt_of_le (Nat.div_le_div_right le) less_)

theorem onePoint {points : List (Entry node.format)}
    (rising : points.Pairwise fun a b => cell width (absoluteOf node a) < cell width (absoluteOf node b))
    {e e' : Entry node.format} (mem : e ∈ points) (mem' : e' ∈ points)
    (same : cell width (absoluteOf node e) = cell width (absoluteOf node e')) : e = e' := by
  by_contra differ
  have symmetric : Std.Symm fun a b : Entry node.format => cell width (absoluteOf node a) ≠ cell width (absoluteOf node b) :=
    ⟨fun _ _ apart => apart.symm⟩
  have apart : points.Pairwise fun a b => cell width (absoluteOf node a) ≠ cell width (absoluteOf node b) :=
    rising.imp fun less_ => Nat.ne_of_lt less_
  exact apart.forall mem mem' differ same

theorem goodPoints (wellFormed : WellFormed reads node carried) (keeps : Keeps reads node carried)
    (framed : Framed reads node carried)
    {sorted : List (Entry node.format)} (permuted : sorted.Perm (entries offsets reads node))
    (ordered : sorted.Pairwise fun a b => less b.morton a.morton = false)
    (le : width ≤ maxMaskForType node.format) (base : lodQuantizeMaskWidth node.lod ≤ width)
    (plain : node.adaptiveSampling = false → width = lodQuantizeMaskWidth node.lod)
    (kept : node.adaptiveSampling = false → lodQuantizeMaskWidth node.lod = 0 → Sparse reads node) :
    GoodLod reads node width (chosen width sorted) := by
  have fits := widthFits le
  have known : ∀ e ∈ chosen width sorted, e ∈ entries offsets reads node := by
    intro e mem
    obtain ⟨j, _, at_⟩ := chosenMem.mp mem
    exact permuted.mem_iff.mp (List.mem_of_getElem? at_)
  have rising := chosenRising le ordered
  have both : (chosen width sorted).Pairwise fun a b => cell width a.morton < cell width b.morton ∧
      cell width (absoluteOf node a) < cell width (absoluteOf node b) := by
    refine rising.imp_of_mem fun {a b} first second less_ => ⟨less_, ?_⟩
    have agree := entryCell wellFormed keeps framed (x := width + 1) (by omega) (known b second) (known a first)
    exact Nat.lt_of_not_le fun le => Nat.not_lt_of_le (agree.mpr le) less_
  have covers : ∀ id index a, Source reads node id index a →
      ∃ e ∈ chosen width sorted, cell width (absoluteOf node e) = cell width a := by
    intro id index a source
    have entered : ∃ e ∈ entries offsets reads node, cell (lodQuantizeMaskWidth node.lod) (absoluteOf node e) =
        cell (lodQuantizeMaskWidth node.lod) a := gatheredCovers wellFormed keeps source
    obtain ⟨e, mem, same⟩ := entered
    obtain ⟨n, at_⟩ := List.getElem?_of_mem (permuted.mem_iff.mpr mem)
    obtain ⟨j, picked, e', at_', same'⟩ := (mergeRepresents le ordered).covers n e (Nat.zero_le _) at_
    have mem' : e' ∈ chosen width sorted := chosenMem.mpr ⟨j, picked, at_'⟩
    refine ⟨e', mem', ?_⟩
    have agree : cell width (absoluteOf node e') = cell width (absoluteOf node e) :=
      Nat.le_antisymm ((entryCell wellFormed keeps framed (by omega) (known e' mem') mem).mp (Nat.le_of_eq same'))
        ((entryCell wellFormed keeps framed (by omega) mem (known e' mem')).mp (Nat.le_of_eq same'.symm))
    exact agree.trans (divFurther (by omega) same)
  refine ⟨both.imp fun less_ => ⟨cellLtValue less_.1, cellLtValue less_.2⟩, ?_, ?_, ?_, ?_⟩
  · intro e mem
    exact (gatheredEntered wellFormed keeps (known e mem)).source
  · intro id index a source
    obtain ⟨e, mem, same⟩ := covers id index a source
    refine ⟨e, ⟨mem, same⟩, fun e' ⟨mem', same'⟩ => ?_⟩
    exact onePoint (both.imp fun less_ => less_.2) mem' mem (same'.trans same.symm)
  · intro p subset u read c mem c' mem'
    obtain ⟨_, read', stored, _⟩ := wellFormed.units p subset
    cases read.symm.trans read'
    have small : lodQuantizeMaskWidth node.lod < 63 := by omega
    have clamp : min (lodQuantizeMaskWidth node.lod) (maxMaskForType u.format) < digits u.format ∧
        min (lodQuantizeMaskWidth node.lod) (maxMaskForType u.format) < 63 := clampFits _
    rw [exceedsCell clamp.1 clamp.2, ← Nat.not_le, ← Nat.not_le, clampedCell stored small mem' mem]
  · intro classic zero id index a source
    obtain ⟨e, mem, same⟩ := covers id index a source
    rw [plain classic, zero] at same
    exact ⟨e, mem, kept classic zero _ _ _ _ _ _ (gatheredEntered wellFormed keeps (known e mem)).source source same⟩

-- One point of a cell is left out when two of the finest mask share it.
theorem keptSparse {points : List (Entry node.format)} (good : GoodLod reads node width points)
    (plain : node.adaptiveSampling = false → width = lodQuantizeMaskWidth node.lod) (classic : node.adaptiveSampling = false)
    (zero : lodQuantizeMaskWidth node.lod = 0) : Sparse reads node := by
  intro id index a id' index' a' source source' same
  obtain ⟨e, mem, rfl⟩ := good.kept classic zero id index a source
  obtain ⟨e', mem', rfl⟩ := good.kept classic zero id' index' a' source'
  have finest : width = 0 := (plain classic).trans zero
  obtain ⟨only, _, unique⟩ := good.cells id index _ source
  rw [unique e ⟨mem, rfl⟩, unique e' ⟨mem', by rw [finest]; exact same.symm⟩]

theorem gatheredNonempty (wellFormed : WellFormed reads node carried) (keeps : Keeps reads node carried)
    (occupied : Occupied reads node) :
    entries offsets reads node ≠ [] := by
  obtain ⟨p, subset⟩ := List.exists_mem_of_ne_nil _ wellFormed.filled
  obtain ⟨u, read, _, room⟩ := wellFormed.units p subset
  have positive := occupied p subset u read
  have here := List.getElem?_eq_getElem (show Subset.first p < u.codes.length by omega)
  have source := Source.point subset read (Nat.le_refl _) (Nat.lt_add_of_pos_right positive) here
  have entered : ∃ e ∈ entries offsets reads node, _ := gatheredCovers wellFormed keeps source
  exact List.ne_nil_of_mem entered.choose_spec.1

theorem quantizeCons (first : Entry node.format) (rest : List (Entry node.format)) : ∃ min max,
    quantizeSorted node (first :: rest) =
      some ⟨min, max, chosen (mergeWidth node (first :: rest)) (first :: rest)⟩ := by
  unfold quantizeSorted
  cases last : (first :: rest).getLast? with
  | none => simp at last
  | some e => exact ⟨_, _, rfl⟩

theorem entriesSorted (made : gathered offsets reads node = some (entries offsets reads node)) :
    ∃ sorted, Sorted offsets reads node sorted := by
  let before := fun a b : Entry node.format => decide (value a.morton ≤ value b.morton)
  have ordered : ((entries offsets reads node).mergeSort before).Pairwise fun a b => before a b = true :=
    List.pairwise_mergeSort (fun a b c first second => by simp only [before, decide_eq_true_eq] at *; omega)
      (fun a b => by simp only [before, Bool.or_eq_true, decide_eq_true_eq]; omega) _
  refine ⟨_, ⟨_, made, List.mergeSort_perm _ before⟩, ordered.imp fun {a b} le => ?_⟩
  rw [Bool.eq_false_iff]
  intro less_
  exact absurd ((lessValue _ _).mp less_) (Nat.not_lt_of_le (of_decide_eq_true le))

theorem sortedUnit (wellFormed : WellFormed reads node carried) (keeps : Keeps reads node carried)
    (framed : Framed reads node carried)
    (occupied : Occupied reads node) {sorted : List (Entry node.format)} (order : Sorted offsets reads node sorted) :
    ∃ out, quantizeSorted node sorted = some out ∧ (GoodLod reads node (mergeWidth node sorted) out.points ↔
      (node.adaptiveSampling = false → lodQuantizeMaskWidth node.lod = 0 → Sparse reads node)) := by
  obtain ⟨all, made, permuted⟩ := order.permuted
  cases made.symm.trans (gatheredSome wellFormed occupied)
  have bounds := mergeWidthLe wellFormed.lod sorted
  have plain : node.adaptiveSampling = false → mergeWidth node sorted = lodQuantizeMaskWidth node.lod := by
    intro classic
    unfold mergeWidth
    split
    · rfl
    · rw [classic]
      rfl
  have iff : GoodLod reads node (mergeWidth node sorted) (chosen (mergeWidth node sorted) sorted) ↔
      (node.adaptiveSampling = false → lodQuantizeMaskWidth node.lod = 0 → Sparse reads node) :=
    ⟨fun good => keptSparse good plain, goodPoints wellFormed keeps framed permuted order.rising bounds.2 bounds.1 plain⟩
  cases sorted with
  | nil => exact absurd permuted.nil_eq.symm (gatheredNonempty wellFormed keeps occupied)
  | cons first rest =>
    obtain ⟨min, max, unit⟩ := quantizeCons first rest
    exact ⟨_, unit, iff⟩

theorem goodLodIff (wellFormed : WellFormed reads node carried) (keeps : Keeps reads node carried)
    (framed : Framed reads node carried) :
    ((∃ sorted, Sorted offsets reads node sorted) ∧ ∀ sorted, Sorted offsets reads node sorted →
      ∃ out, quantizeSorted node sorted = some out ∧ GoodLod reads node (mergeWidth node sorted) out.points) ↔
    Occupied reads node ∧ (node.adaptiveSampling = false → lodQuantizeMaskWidth node.lod = 0 → Sparse reads node) := by
  constructor
  · rintro ⟨⟨sorted, order⟩, good⟩
    obtain ⟨all, made, _⟩ := order.permuted
    have occupied := gatheredOccupied wellFormed made
    obtain ⟨out, unit, iff⟩ := sortedUnit wellFormed keeps framed occupied order
    obtain ⟨_, unit', goodOut⟩ := good sorted order
    cases unit.symm.trans unit'
    exact ⟨occupied, iff.mp goodOut⟩
  · rintro ⟨occupied, sparse⟩
    refine ⟨entriesSorted (gatheredSome wellFormed occupied), fun sorted order => ?_⟩
    obtain ⟨out, unit, iff⟩ := sortedUnit wellFormed keeps framed occupied order
    exact ⟨out, unit, iff.mpr sparse⟩

/-! ## Nodes of one unit -/

def lowCode (f : Format) (n : Nat) : Code f := ⟨fun k => if k.val = 0 then BitVec.ofNat f.bits n else 0⟩
def onlyId : InputId := ⟨1, 0⟩
def smallUnit (min : Nat) (codes : List Nat) : SourceUnit := ⟨.m32, lowCode .m192 min, codes.map (lowCode .m32)⟩
def onlyReads (u : SourceUnit) (id : InputId) : Option SourceUnit := if id = onlyId then some u else none

def onlyNode (lod : Nat) (u : SourceUnit) : LodNode where
  lod := lod
  nodeMin := lowCode .m192 0
  childData := [⟨u.codes.length, 0, 0, 0, [⟨onlyId, 0, 0⟩]⟩]
  adaptiveSampling := false

def halves : RandomOffsets := ⟨fun _ size => size / 2, fun _ _ positive => Nat.div_lt_self positive (by decide)⟩

theorem onlySource {u : SourceUnit} {lod id index a} (source : Source (onlyReads u) (onlyNode lod u) id index a) :
    ∃ c ∈ u.codes, a = absolute u c := by
  obtain ⟨subset, read, _, _, here⟩ := source
  cases List.mem_singleton.mp subset
  cases read
  exact ⟨_, List.mem_of_getElem? here, rfl⟩

theorem sourceOnly {u : SourceUnit} {lod index : Nat} {c : Code u.format} (here : u.codes[index]? = some c) :
    Source (onlyReads u) (onlyNode lod u) onlyId index (absolute u c) := by
  have inside := (List.getElem?_eq_some_iff.mp here).1
  exact .point (p := ⟨onlyId, 0, 0⟩) (List.mem_singleton.mpr rfl) rfl (Nat.zero_le _)
    (by simpa [Subset.first, Subset.size] using inside) here

theorem onePointUnit {reads : InputId → Option SourceUnit} {node : LodNode}
    (single : (gathered offsets reads node).map List.length = some 1) :
    ∃ e out, gathered offsets reads node = some [e] ∧ Sorted offsets reads node [e] ∧
      quantizeSorted node [e] = some out ∧ out.points = [e] := by
  obtain ⟨all, made, one⟩ := Option.map_eq_some_iff.mp single
  obtain ⟨e, rfl⟩ := List.length_eq_one_iff.mp one
  obtain ⟨min, max, unit⟩ := quantizeCons e []
  exact ⟨e, _, made, ⟨⟨[e], made, List.Perm.refl _⟩, List.pairwise_singleton _ _⟩, unit, rfl⟩

-- Two points of one finest cell.
def pairUnit : SourceUnit := smallUnit 0 [0, 1]

-- The eleventh digit of the unit is only in its minimum.
def farUnit : SourceUnit := smallUnit (2 ^ 30) [0]

-- What a sorted batch without points leaves.
def emptyUnit : SourceUnit := smallUnit 0 []

theorem pointsLost :
    (∃ sorted out, Sorted halves (onlyReads pairUnit) (onlyNode 1 pairUnit) sorted ∧
      quantizeSorted (onlyNode 1 pairUnit) sorted = some out ∧
      ¬GoodLod (onlyReads pairUnit) (onlyNode 1 pairUnit) (mergeWidth (onlyNode 1 pairUnit) sorted) out.points) ∧
    (∃ sorted out, Sorted halves (onlyReads farUnit) (onlyNode 11 farUnit) sorted ∧
      quantizeSorted (onlyNode 11 farUnit) sorted = some out ∧
      ¬GoodLod (onlyReads farUnit) (onlyNode 11 farUnit) (mergeWidth (onlyNode 11 farUnit) sorted) out.points) ∧
    ¬∃ sorted, Sorted halves (onlyReads emptyUnit) (onlyNode 1 emptyUnit) sorted := by
  refine ⟨?_, ?_, ?_⟩
  · obtain ⟨e, out, _, order, made, _⟩ := onePointUnit
      (show (gathered halves (onlyReads pairUnit) (onlyNode 1 pairUnit)).map List.length = some 1 by decide)
    refine ⟨[e], out, order, made, fun good => ?_⟩
    have sparse := keptSparse good (fun _ => rfl) rfl rfl
    have first : Source (onlyReads pairUnit) (onlyNode 1 pairUnit) onlyId 0 (absolute pairUnit (lowCode .m32 0)) := sourceOnly rfl
    have second : Source (onlyReads pairUnit) (onlyNode 1 pairUnit) onlyId 1 (absolute pairUnit (lowCode .m32 1)) := sourceOnly rfl
    have same := congrArg value (sparse _ _ _ _ _ _ first second (by decide))
    revert same
    decide
  · obtain ⟨e, out, alone, order, made, points⟩ := onePointUnit
      (show (gathered halves (onlyReads farUnit) (onlyNode 11 farUnit)).map List.length = some 1 by decide)
    refine ⟨[e], out, order, made, fun good => ?_⟩
    obtain ⟨c, mem, code⟩ := onlySource (good.named e (points ▸ List.mem_singleton.mpr rfl))
    cases List.mem_singleton.mp mem
    have zero : (gathered halves (onlyReads farUnit) (onlyNode 11 farUnit)).map
        (List.map fun e => value (absoluteOf (onlyNode 11 farUnit) e)) = some [0] := by decide
    rw [alone, Option.map_some, List.map_singleton, code] at zero
    revert zero
    decide
  · rintro ⟨sorted, order⟩
    obtain ⟨_, made, _⟩ := order.permuted
    cases made

/-! ## A node of two units -/

def narrowUnit : SourceUnit := smallUnit 0 [5, 700]
def wideUnit : SourceUnit := ⟨.m64, lowCode .m192 0, [2, 3, 2 ^ 31].map (lowCode .m64)⟩

def mixedReads (id : InputId) : Option SourceUnit :=
  if id = ⟨1, 0⟩ then some narrowUnit else if id = ⟨2, 0⟩ then some wideUnit else none

-- All of the narrow unit, which is widened, and the last two points of the wide one.
def mixedNode : LodNode where
  lod := 11
  nodeMin := lowCode .m192 0
  childData := [⟨2, 5, 700, 3, [⟨⟨1, 0⟩, 0, 0⟩]⟩, ⟨2, 3, 2 ^ 31, 10, [⟨⟨2, 0⟩, 1, 2⟩]⟩]
  adaptiveSampling := false

theorem narrowStored : Stored narrowUnit false := by
  refine ⟨by decide, fun c mem i high held => ?_⟩
  have spare : i = 30 ∨ i = 31 := by
    change 30 ≤ i at high
    change i < 32 at held
    omega
  rcases List.mem_pair.mp mem with rfl | rfl <;> rcases spare with rfl | rfl <;> decide

theorem wideStored : Stored wideUnit false := by
  refine ⟨by decide, fun c mem i high held => ?_⟩
  have spare : i = 63 := by
    change 63 ≤ i at high
    change i < 64 at held
    omega
  subst spare
  revert c
  decide

theorem mixedUnits {p u} (subset : p ∈ mixedNode.subsets) (read : mixedReads p.inputId = some u) :
    (p = ⟨⟨1, 0⟩, 0, 0⟩ ∧ u = narrowUnit) ∨ (p = ⟨⟨2, 0⟩, 1, 2⟩ ∧ u = wideUnit) := by
  rcases List.mem_pair.mp subset with rfl | rfl
  · cases read
    exact .inl ⟨rfl, rfl⟩
  · cases read
    exact .inr ⟨rfl, rfl⟩

theorem goodLodMixed : (∃ sorted, Sorted halves mixedReads mixedNode sorted) ∧
    ∀ sorted, Sorted halves mixedReads mixedNode sorted →
    ∃ out, quantizeSorted mixedNode sorted = some out ∧ GoodLod mixedReads mixedNode (mergeWidth mixedNode sorted) out.points := by
  have wellFormed : WellFormed mixedReads mixedNode fun _ => false := by
    refine ⟨by decide, by decide, ?_, ?_⟩
    · intro p subset
      rcases List.mem_pair.mp subset with rfl | rfl
      · exact ⟨narrowUnit, rfl, narrowStored, by decide⟩
      · exact ⟨wideUnit, rfl, wideStored, by decide⟩
    · intro id index a source
      obtain ⟨subset, read, _, _, here⟩ := source
      have mem := List.mem_of_getElem? here
      clear here
      rcases mixedUnits subset read with ⟨rfl, rfl⟩ | ⟨rfl, rfl⟩
      · exact (show ∀ c ∈ narrowUnit.codes, cell 11 (absolute narrowUnit c) = cell 11 mixedNode.nodeMin by decide) _ mem
      · exact (show ∀ c ∈ wideUnit.codes, cell 11 (absolute wideUnit c) = cell 11 mixedNode.nodeMin by decide) _ mem
  have keeps : Keeps mixedReads mixedNode fun _ => false := by
    intro p subset u read _ i _ _ set
    have clear : value u.mortonMin = 0 := by rcases mixedUnits subset read with ⟨_, rfl⟩ | ⟨_, rfl⟩ <;> decide
    rw [← valueBit, clear, Nat.zero_testBit] at set
    cases set
  have framed : Framed mixedReads mixedNode fun _ => false := by
    refine .inl fun i high held => ?_
    have spare : i = 63 := by
      change 63 ≤ i at high
      change i < 64 at held
      omega
    subst spare
    decide
  refine (goodLodIff wellFormed keeps framed).mpr ⟨fun p subset u read => ?_, fun _ zero => absurd zero (by decide)⟩
  rcases mixedUnits subset read with ⟨rfl, rfl⟩ | ⟨rfl, rfl⟩ <;> decide

end Dewfall.LodMerge
