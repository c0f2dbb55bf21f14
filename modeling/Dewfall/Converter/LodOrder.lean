import Dewfall.Core.MortonDigits
import Dewfall.Core.MortonTree
import Dewfall.General.CountingSort

/-! build_lod_order_from_mortons: the levels of the points of one node, their counting sort from coarse to
fine and the prefix counts. The counts are taken without their 32-bit width, which no array of at most 2^32 - 1
codes exceeds. What a renderer draws from the order is not treated. -/
namespace Dewfall.LodOrder
open Morton (Format Code)
open MortonTree (mortonLod)
open MortonDigits
open General.CountingSort

variable {f : Format}

def lodOrderMaxLevel : Nat := 63

structure Order where
  prefixCount : Nat → Nat
  perm : List Nat
  repLevelOut : List Nat

-- The first point stands for every width.
def repLevels : List (Code f) → List Nat
  | [] => []
  | c :: rest => lodOrderMaxLevel :: List.zipWith (fun prev cur => Nat.min (codeLod prev cur) lodOrderMaxLevel) (c :: rest) rest

def bump (hist : Nat → Nat) (level : Nat) : Nat → Nat := Function.update hist level (hist level + 1)

def histogram (repLevel : List Nat) : Nat → Nat := repLevel.foldl bump fun _ => 0

def levelsDown : List Nat := (List.range (lodOrderMaxLevel + 1)).reverse

def starts (hist : Nat → Nat) : Nat → Nat := (levelsDown.foldl (fillDown hist fun acc _ => acc) (fun _ => 0, 0)).1

def suffixes (hist : Nat → Nat) : Nat → Nat :=
  (levelsDown.foldl (fillDown hist fun suffix own => suffix + own) (fun _ => 0, 0)).1

def resize (l : List Nat) (n : Nat) : List Nat := l.take n ++ List.replicate (n - l.length) 0

def buildLodOrderFromMortons (mortonArray : List (Code f)) (perm : List Nat) : Order :=
  if mortonArray.length = 0 then ⟨fun _ => 0, resize perm 0, []⟩
  else
    let repLevel := repLevels mortonArray
    let hist := histogram repLevel
    let order := ((List.range mortonArray.length).foldl (place fun i => repLevel.getD i 0)
      (starts hist, resize perm mortonArray.length)).2
    ⟨suffixes hist, order, order.map fun i => repLevel.getD i 0⟩

def Ascending (codes : List (Code f)) : Prop := codes.Pairwise fun a b => less b a = false
instance (codes : List (Code f)) : Decidable (Ascending codes) :=
  inferInstanceAs (Decidable (codes.Pairwise fun a b => less b a = false))

-- The cell of the given width that a code lies in.
def cell (w : Nat) (c : Code f) : Nat := value c / 8 ^ w

def FirstOfCell (codes : List (Code f)) (w i : Nat) : Prop :=
  ∃ c, codes[i]? = some c ∧ ∀ j < i, ∀ b, codes[j]? = some b → cell w b ≠ cell w c

variable {codes : List (Code f)} {w i : Nat}

theorem repLevelsLength (codes : List (Code f)) : (repLevels codes).length = codes.length := by
  cases codes with
  | nil => rfl
  | cons c rest => simp [repLevels]

theorem repLevelsFirst {c : Code f} (first : codes[0]? = some c) : (repLevels codes)[0]? = some lodOrderMaxLevel := by
  cases codes with
  | nil => cases first
  | cons c rest => rfl

theorem repLevelsNext {a b : Code f} (prev : codes[i]? = some a) (cur : codes[i + 1]? = some b) :
    (repLevels codes)[i + 1]? = some (Nat.min (codeLod a b) lodOrderMaxLevel) := by
  cases codes with
  | nil => cases prev
  | cons c rest =>
    have later : rest[i]? = some b := by simpa using cur
    simp [repLevels, List.getElem?_zipWith, prev, later]

theorem repLevelsBelow (codes : List (Code f)) (i : Nat) : (repLevels codes).getD i 0 < lodOrderMaxLevel + 1 := by
  rw [List.getD_eq_getElem?_getD]
  cases here : (repLevels codes)[i]? with
  | none => exact Nat.succ_pos _
  | some level =>
    have inside := (List.getElem?_eq_some_iff.mp here).1
    rw [repLevelsLength] at inside
    cases i with
    | zero =>
      rw [repLevelsFirst (List.getElem?_eq_getElem inside)] at here
      exact Nat.lt_succ_of_le (Nat.le_of_eq (Option.some.inj here).symm)
    | succ i =>
      rw [repLevelsNext (List.getElem?_eq_getElem (Nat.lt_of_succ_lt inside)) (List.getElem?_eq_getElem inside)] at here
      rw [← Option.some.inj here]
      exact Nat.lt_succ_of_le (Nat.min_le_right ..)

theorem ascendingValues (ascending : Ascending codes) {j k : Nat} {a b : Code f} (le : j ≤ k)
    (first : codes[j]? = some a) (second : codes[k]? = some b) : value a ≤ value b := by
  obtain ⟨low, rfl⟩ := List.getElem?_eq_some_iff.mp first
  obtain ⟨high, rfl⟩ := List.getElem?_eq_some_iff.mp second
  rcases Nat.eq_or_lt_of_le le with same | before
  · subst same
    exact Nat.le_refl _
  · have order := List.pairwise_iff_getElem.mp ascending j k low high before
    refine Nat.le_of_not_lt fun under => ?_
    rw [(lessValue _ _).mpr under] at order
    cases order

-- Neighbours decide: between equal cells of two sorted codes lies no other cell.
theorem lodFirst (ascending : Ascending codes) (positive : 0 < w) (below : w ≤ lodOrderMaxLevel)
    (inside : i < codes.length) : w ≤ (repLevels codes).getD i 0 ↔ FirstOfCell codes w i := by
  have here := List.getElem?_eq_getElem inside
  cases i with
  | zero =>
    rw [List.getD_eq_getElem?_getD, repLevelsFirst here]
    exact ⟨fun _ => ⟨_, here, fun j before => absurd before (Nat.not_lt_zero j)⟩, fun _ => below⟩
  | succ i =>
    have prev := List.getElem?_eq_getElem (Nat.lt_of_succ_lt inside)
    rw [List.getD_eq_getElem?_getD, repLevelsNext prev here, Option.getD_some, codeLodValue]
    have neighbours : w ≤ Nat.min (mortonLod (value codes[i]) (value codes[i + 1])) lodOrderMaxLevel ↔
        cell w codes[i] ≠ cell w codes[i + 1] := by
      constructor
      · intro high same
        have near := MortonTree.lodLt positive same
        exact absurd (Nat.le_trans high (Nat.min_le_left ..)) (Nat.not_le.mpr near)
      · intro apart
        refine Nat.le_min.mpr ⟨Nat.le_of_not_lt fun near => apart (MortonTree.lodSame near), below⟩
    refine neighbours.trans ⟨fun apart => ⟨_, here, fun j before b other same => apart ?_⟩, fun first => ?_⟩
    · have low := Nat.div_le_div_right (c := 8 ^ w) (ascendingValues ascending (Nat.le_of_lt_succ before) other prev)
      have high := Nat.div_le_div_right (c := 8 ^ w) (ascendingValues ascending (Nat.le_succ i) prev here)
      unfold cell at same ⊢
      omega
    · obtain ⟨c, found, first⟩ := first
      cases Option.some.inj (here.symm.trans found)
      exact first i (Nat.lt_succ_self i) _ prev

theorem histogramCount (repLevel : List Nat) (l : Nat) :
    histogram repLevel l = counts (fun i => repLevel.getD i 0) repLevel.length l := by
  have folded : ∀ (ls : List Nat) (h : Nat → Nat), ls.foldl bump h l = h l + ls.count l := by
    intro ls
    induction ls with
    | nil => exact fun h => rfl
    | cons level ls ih =>
      intro h
      rw [List.foldl_cons, ih, List.count_cons, bump]
      by_cases own : level = l
      · subst own
        rw [Function.update_self, if_pos (by simp)]
        omega
      · rw [Function.update_of_ne (Ne.symm own), if_neg (by simpa using own)]
        omega
  have listed : repLevel = (List.range repLevel.length).map fun i => repLevel.getD i 0 := by
    refine List.ext_getElem (by simp) fun i inside _ => ?_
    simp [inside]
  calc histogram repLevel l = 0 + repLevel.count l := folded repLevel _
    _ = ((List.range repLevel.length).map fun i => repLevel.getD i 0).count l := by rw [← listed, Nat.zero_add]
    _ = counts (fun i => repLevel.getD i 0) repLevel.length l := by
      rw [List.count_eq_countP, List.countP_map, List.countP_eq_length_filter]
      rfl

theorem startsAt (hist : Nat → Nat) {l : Nat} (low : l < lodOrderMaxLevel + 1) :
    starts hist l = atLeast hist (lodOrderMaxLevel + 1) (l + 1) :=
  (filledDown ..).trans ((if_pos low).trans (Nat.zero_add _))

theorem suffixesAt (hist : Nat → Nat) {l : Nat} (low : l < lodOrderMaxLevel + 1) :
    suffixes hist l = atLeast hist (lodOrderMaxLevel + 1) l := by
  refine (filledDown ..).trans ((if_pos low).trans ?_)
  rw [atLeastStep low]
  exact congrArg (· + hist l) (Nat.zero_add _)

theorem resizeLength (l : List Nat) (n : Nat) : (resize l n).length = n := by
  simp only [resize, List.length_append, List.length_take, List.length_replicate]
  omega

theorem orderBuilt (codes : List (Code f)) (perm : List Nat) :
    let key := fun i => (repLevels codes).getD i 0
    let order := buildLodOrderFromMortons codes perm
    order.perm = laidOut (group key codes.length) (lodOrderMaxLevel + 1) ∧ order.repLevelOut = order.perm.map key ∧
      ∀ w ≤ lodOrderMaxLevel, order.prefixCount w = atLeast (counts key codes.length) (lodOrderMaxLevel + 1) w := by
  intro key order
  have hist : histogram (repLevels codes) = counts key codes.length := by
    funext l
    rw [histogramCount, repLevelsLength]
  unfold order buildLodOrderFromMortons
  split
  · rename_i empty
    have ends := @countsAll (lodOrderMaxLevel + 1) key codes.length fun i inside => by omega
    have none_ : laidOut (group key codes.length) (lodOrderMaxLevel + 1) = [] :=
      List.length_eq_zero_iff.mp ((laidOutLength ..).trans (ends.trans empty))
    refine ⟨(List.length_eq_zero_iff.mp (resizeLength perm 0)).trans none_.symm, ?_, fun w low => ?_⟩
    · exact (congrArg (List.map key) (List.length_eq_zero_iff.mp (resizeLength perm 0))).symm
    · have least := @atLeastMono (counts key codes.length) (lodOrderMaxLevel + 1) 0 w (Nat.zero_le w)
      change 0 = _
      omega
  · dsimp only
    rw [hist]
    refine ⟨placedAll (fun i _ => repLevelsBelow codes i) (fun l low => startsAt _ low) (resizeLength ..), rfl, ?_⟩
    exact fun w low => suffixesAt _ (Nat.lt_succ_of_le low)

-- Of the points of a cell, the first one alone is a first of its cell.
theorem cellFirst {c : Code f} (member : c ∈ codes) (w : Nat) :
    ∃! i : Nat, FirstOfCell codes w i ∧ codes[i]?.map (cell w) = some (cell w c) := by
  have occupied : ∃ i : Nat, codes[i]?.map (cell w) = some (cell w c) := by
    obtain ⟨i, found⟩ := List.mem_iff_getElem?.mp member
    exact ⟨i, by rw [found]; rfl⟩
  obtain ⟨b, found, same⟩ := Option.map_eq_some_iff.mp (Nat.find_spec occupied)
  refine ⟨Nat.find occupied, ⟨⟨b, found, fun j before d other equal => ?_⟩, Nat.find_spec occupied⟩, fun i here => ?_⟩
  · refine Nat.find_min occupied before ?_
    rw [other, Option.map_some, equal, same]
  · obtain ⟨⟨d, at_, first⟩, own⟩ := here
    have least := Nat.find_min' occupied own
    rcases Nat.lt_or_eq_of_le least with before | equal
    · rw [at_, Option.map_some] at own
      exact absurd (same.trans (Option.some.inj own).symm) (first _ before b found)
    · exact equal.symm

-- Drawn from coarse to fine, every prefix count cuts off exactly one point of each occupied cell of its width.
theorem prefixesRepresent {codes : List (Code f)} (perm : List Nat) (ascending : Ascending codes) :
    let order := buildLodOrderFromMortons codes perm
    order.perm.Perm (List.range codes.length) ∧ order.repLevelOut.length = codes.length ∧
    (order.perm.zip order.repLevelOut).Pairwise (fun p q => q.2 ≤ p.2 ∧ (q.2 = p.2 → p.1 < q.1)) ∧
    order.prefixCount 0 = codes.length ∧
    ∀ w, 0 < w → w ≤ lodOrderMaxLevel →
      (∀ p ∈ order.perm.zip order.repLevelOut, w ≤ p.2 ↔ FirstOfCell codes w p.1) ∧
      order.prefixCount w ≤ codes.length ∧
      (∀ i, i ∈ order.perm.take (order.prefixCount w) ↔ FirstOfCell codes w i) ∧
      ∀ c ∈ codes, ∃! i, i ∈ order.perm.take (order.prefixCount w) ∧ codes[i]?.map (cell w) = some (cell w c) := by
  intro order
  obtain ⟨laid, levels, counted⟩ := orderBuilt codes perm
  have below : ∀ i < codes.length, (repLevels codes).getD i 0 < lodOrderMaxLevel + 1 := fun i _ => repLevelsBelow codes i
  have whole := countsAll below
  have permuted : order.perm.Perm (List.range codes.length) := by
    rw [laid]
    exact laidOutPerm below
  have pairs : order.perm.zip order.repLevelOut = order.perm.map fun i => (i, (repLevels codes).getD i 0) := by
    rw [levels, List.zip_map_right, List.zip_eq_zipWith, List.zipWith_self, List.map_map]
    rfl
  refine ⟨permuted, ?_, ?_, (counted 0 (Nat.zero_le _)).trans whole, fun w positive low => ?_⟩
  · rw [levels, List.length_map, permuted.length_eq, List.length_range]
  · rw [pairs, List.pairwise_map, laid]
    exact laidOutStable ..
  · have taken : ∀ i, i ∈ order.perm.take (order.prefixCount w) ↔ FirstOfCell codes w i := fun i => by
      rw [laid, counted w low, takenMember below]
      constructor
      · rintro ⟨inside, high⟩
        exact (lodFirst ascending positive low inside).mp high
      · intro first
        obtain ⟨c, found, _⟩ := first
        have inside := (List.getElem?_eq_some_iff.mp found).1
        exact ⟨inside, (lodFirst ascending positive low inside).mpr ⟨c, found, by assumption⟩⟩
    refine ⟨fun p member => ?_, ?_, taken, fun c member => ?_⟩
    · rw [pairs] at member
      obtain ⟨i, here, rfl⟩ := List.mem_map.mp member
      exact lodFirst ascending positive low (List.mem_range.mp (permuted.subset here))
    · rw [counted w low]
      exact (atLeastMono (Nat.zero_le w)).trans_eq whole
    · obtain ⟨i, ⟨first, own⟩, only⟩ := cellFirst member w
      exact ⟨i, ⟨(taken i).mpr first, own⟩, fun j here => only j ⟨(taken j).mp here.1, here.2⟩⟩

-- Five points in four cells of width one and two of width two.
def sampleCodes : List (Code .m32) := [3, 3, 8, 20, 64].map fun n => ⟨fun _ => BitVec.ofNat 32 n⟩

theorem sampleRepresented : (buildLodOrderFromMortons sampleCodes []).perm = [0, 4, 2, 3, 1] ∧
    (buildLodOrderFromMortons sampleCodes []).perm.Perm (List.range sampleCodes.length) ∧
    (buildLodOrderFromMortons sampleCodes []).prefixCount 0 = sampleCodes.length := by
  have ascending : Ascending sampleCodes := by decide
  have sorted := prefixesRepresent [] ascending
  exact ⟨by decide, sorted.1, sorted.2.2.2.1⟩

end Dewfall.LodOrder
