import Dewfall.Converter.ArrayInsert

/-! The chain of trees above a root that is re-parented, and the nested chain that it stands for. -/
namespace Dewfall.ArrayReparent
open General General.Cells General.Blocks StorageMap PointSplitter MortonTree TreeReparent ArrayBuild ArrayForm ArrayNest
  ArrayGrow ArrayHang ArrayInsert
open TreeBuild (Octree TreeInfo newTree emptyNode)
open TreeInsert (Octree.isNode)
open TreeGraft (linked floorChild)
open LodWork (nodeAt dataAt treeLevelToLod nodeMinOf)

/-! ## A tree of the chain -/

theorem maskLt (lod c : Nat) : getChildMask lod c < 8 := digitLt lod c

theorem octantOne {mask : Nat} (octant : mask < 8) : octantsOf (1 <<< mask) = [mask] := by
  have put := octantsPut octant (Nat.zero_testBit mask)
  rw [Nat.zero_or, countNone] at put
  exact put

section
variable {t : Tree} {c sub : Nat}

theorem linkSame (t : Tree) (c sub : Nat) : SameTree t (linkTree t c sub) := ⟨rfl, rfl, rfl, rfl⟩

theorem openedFormed (opened : Opened t c) : Formed t := by
  have blank : ∀ l, t.levels (l + 1) = blankLevel := fun l => by rw [opened.levels, chainBlank (Nat.succ_pos l)]
  have first : t.levels 0 = openLevel t.lod c 0 := by rw [opened.levels, chainOpen]
  have named : getName 0 0 (getChildMask (t.lod + 1) c) = getName 0 0 (getChildMask (t.lod + 1) t.mortonMin) := by
    rw [opened.range.1, maskDigit]
  have each : ∀ P : Level → Prop, P (openLevel t.lod c 0) → P blankLevel → ∀ l, P (t.levels l) := by
    intro P start rest l
    cases l with
    | zero => exact first ▸ start
    | succ l => exact blank l ▸ rest
  refine ⟨fun l _ => each (fun level => level.nodeIds.length = level.nodes.length) rfl rfl l,
    fun l _ => each (fun level => level.data.length = level.nodes.length) rfl rfl l,
    fun l _ => each (fun level => level.skips = starts wide 0 level.nodes) rfl rfl l,
    fun l _ => each (fun level => ∀ node ∈ level.nodes, node < 256) (fun node mem => ?_) (fun _ mem => nomatch mem) l,
    by rw [first]; rfl, by rw [first, ← named]; rfl, fun l _ => ?_, ?_⟩
  · rw [List.mem_singleton.mp mem]
    decide
  · rw [blank]
    exact each (fun level => [] = (rows level).flatMap fun row => childNames (l + 1) row.1 row.2)
      (by
        change [] = childNames (l + 1) _ 0 ++ []
        rw [childNone]
        rfl) rfl l
  · rw [blank, opened.subTrees]
    rfl

theorem linkFormed (opened : Opened t c) (sub : Nat) : Formed (linkTree t c sub) := by
  have level : ∀ l < 5, (linkTree t c sub).levels l = linkLevel t.lod c l := fun l less => linkTreeLevel t c sub less
  have one : ∀ l, wide (1 <<< getChildMask (t.lod - l) c) = 1 := fun l => by
    rw [← wideLength, octantOne (maskLt _ _)]
    rfl
  refine ⟨fun l less => ?_, fun l less => ?_, fun l less => ?_, fun l less node mem => ?_, ?_, ?_, fun l less => ?_, ?_⟩
  · rw [level l less]
    rfl
  · rw [level l less]
    rfl
  · rw [level l less]
    rfl
  · rw [level l less] at mem
    rw [List.mem_singleton.mp mem, Nat.one_shiftLeft]
    exact Nat.pow_lt_pow_right (by decide) (maskLt _ _)
  · rw [level 0 (by decide)]
    rfl
  · rw [level 0 (by decide)]
    change [getName 0 0 (getChildMask (t.lod + 1) c)] = [getName 0 0 (getChildMask (t.lod + 1) t.mortonMin)]
    rw [opened.range.1, maskDigit]
  · rw [level l (by omega), level (l + 1) (by omega)]
    change [_] = childNames (l + 1) (pathName t.lod c l) (1 <<< getChildMask (t.lod - l) c) ++ []
    rw [childNames, octantOne (maskLt _ _)]
    rfl
  · rw [level 4 (by decide)]
    change 1 = wide _ + 0
    rw [one]

theorem linkCell (min : t.mortonMin = maskMin t.lod c) {j : Nat} (level : j < 5) :
    cellOf t (pathName t.lod c j) = floor (t.lod + 1 - j) c := by
  induction j with
  | zero =>
    have root := cellRoot t
    rw [min, maskDigit] at root
    exact root
  | succ j ih =>
    have lod : treeLevelToLod t.magnitude j = t.lod - j := rfl
    have above : t.lod + 1 - j = t.lod - j + 1 := by
      unfold Tree.lod magnitudeToLod
      omega
    have next : t.lod + 1 - (j + 1) = t.lod - j := Nat.add_sub_add_right ..
    rw [pathName, cellChild (by omega) (maskLt _ _), ih (by omega), lod, above, next,
      bitsApart (floorAligned _ _) (maskLt _ _)]
    exact floorChild ..

end

/-! ## The registry -/

section
variable {r : Registry}

theorem addedGets (wired : Wired r) (sub : Tree) (id : Nat) :
    ((treeCacheAddTree r).1.set r.currentId sub).get id = if id = r.currentId then some sub else r.get id := by
  have length := addLength r
  have numbered := wired.numbered
  rw [getSet (by omega)]
  split
  · rfl
  · by_cases before : id < r.data.length
    · exact getAdd before
    · unfold Registry.get
      rw [List.getElem?_eq_none (by omega), List.getElem?_eq_none (by omega)]

theorem addedWired (wired : Wired r) {sub : Tree} (id : sub.id = r.currentId) (formed : Formed sub) (none_ : sub.subTrees = []) :
    Wired ((treeCacheAddTree r).1.set r.currentId sub) := by
  have gets := addedGets wired sub
  have old : ∀ {other : Nat} {t : Tree}, r.get other = some t →
      ((treeCacheAddTree r).1.set r.currentId sub).get other = some t := by
    intro other t found
    have inside := getInside found
    rw [gets, if_neg (by rw [wired.numbered]; omega)]
    exact found
  have listed : ∀ {other x child : Nat} {t : Tree}, ((treeCacheAddTree r).1.set r.currentId sub).get other = some t →
      t.subTrees[x]? = some child → r.get other = some t := by
    intro other x child t found at_
    rw [gets] at found
    split at found
    · cases found
      rw [none_] at at_
      cases at_
    · exact found
  refine ⟨?_, fun {other t} found => ?_, fun {other t} found => ?_, fun {other x child t} found at_ => ?_,
    fun {i i' x x' child t t'} found found' at_ at' => wired.once (listed found at_) (listed found' at') at_ at'⟩
  · change r.currentId + 1 = ((treeCacheAddTree r).1.data.set _ _).length
    rw [List.length_set, addLength, wired.numbered]
  · rw [gets] at found
    split at found
    · rename_i own
      cases found
      exact id.trans own.symm
    · exact wired.own found
  · rw [gets] at found
    split at found
    · cases found
      exact formed
    · exact wired.formed found
  · obtain ⟨s, link⟩ := wired.links (listed found at_) at_
    exact ⟨s, old link.found, link.magnitude, link.min⟩

def Free (r : Registry) (id : Nat) : Prop := ∀ {other x : Nat} {u : Tree}, r.get other = some u → u.subTrees[x]? ≠ some id

theorem linkedWired (wired : Wired r) {id sub c : Nat} {t s : Tree} (found : r.get id = some t) (foundSub : r.get sub = some s)
    (opened : Opened t c) (magnitude : s.magnitude + 1 = t.magnitude) (cell : s.mortonMin = maskMin s.lod c)
    (free : Free r sub) : Wired (r.set id (linkTree t c sub)) := by
  have gets := getSet (getInside found) (linkTree t c sub)
  have apart : sub ≠ id := by
    rintro rfl
    obtain rfl : t = s := Option.some.inj (found.symm.trans foundSub)
    omega
  have same := linkSame t c sub
  have level4 : (linkTree t c sub).levels 4 = linkLevel t.lod c 4 := linkTreeLevel t c sub (by decide)
  -- The new tree lists the one below it, the others what they did.
  have listed : ∀ {other x child : Nat} {u : Tree}, (r.set id (linkTree t c sub)).get other = some u →
      u.subTrees[x]? = some child → other = id ∧ u = linkTree t c sub ∧ x = 0 ∧ child = sub ∨
        r.get other = some u ∧ child ≠ sub := by
    intro other x child u here at_
    rw [gets] at here
    split at here
    · rename_i own
      cases here
      obtain ⟨zero, equal⟩ := List.getElem?_eq_some_iff.mp at_
      change x < 1 at zero
      obtain rfl : x = 0 := by omega
      exact Or.inl ⟨own, rfl, rfl, equal.symm⟩
    · exact Or.inr ⟨here, fun equal => free here (equal ▸ at_)⟩
  have oldLinked : ∀ {u v : Tree} {x child : Nat}, Linked r u x child v →
      ∃ v', Linked (r.set id (linkTree t c sub)) u x child v' := fun linked => linkedSet found same linked
  refine ⟨?_, fun {other u} here => ?_, fun {other u} here => ?_, fun {other x child u} here at_ => ?_,
    fun {i i' x x' child u u'} here here' at_ at' => ?_⟩
  · change r.currentId = (r.data.set id _).length
    rw [List.length_set]
    exact wired.numbered
  · rw [gets] at here
    split at here
    · rename_i own
      cases here
      exact (wired.own found).trans own.symm
    · exact wired.own here
  · rw [gets] at here
    split at here
    · cases here
      exact linkFormed opened sub
    · exact wired.formed here
  · rcases listed here at_ with ⟨rfl, rfl, rfl, rfl⟩ | ⟨old, _⟩
    · refine ⟨s, (gets _).trans ((if_neg apart).trans foundSub), magnitude, fun k i name index octant named => ?_⟩
      have row : k = 0 ∧ i = getChildMask (t.lod - 4) c ∧ name = pathName t.lod c 4 := by
        unfold childIndex nodeAt at index
        rw [level4] at index named
        unfold linkLevel at index named
        dsimp only at index named
        cases k with
        | succ k => cases named
        | zero =>
          dsimp only [List.getElem?_cons_zero] at index named
          rw [linkBit] at index
          split at index
          · rename_i own
            exact ⟨rfl, (of_decide_eq_true own).symm, (Option.some.inj named).symm⟩
          · cases index
      obtain ⟨rfl, rfl, rfl⟩ := row
      change s.mortonMin = cellOf t (pathName t.lod c 4) ||| _ <<< (t.magnitude * 15)
      have lod : t.lod - 4 = s.lod + 1 := by
        unfold Tree.lod magnitudeToLod
        omega
      have next : t.lod + 1 - 4 = s.lod + 1 + 1 := by
        unfold Tree.lod magnitudeToLod
        omega
      have place : t.magnitude * 15 = (s.lod + 1) * 3 := by
        unfold Tree.lod magnitudeToLod
        omega
      rw [linkCell opened.range.1 (by decide), lod, next, place, bitsApart (floorAligned _ _) (maskLt _ _), cell]
      exact (floorChild ..).symm
    · obtain ⟨v, link⟩ := wired.links old at_
      exact oldLinked link
  · rcases listed here at_ with ⟨rfl, _, rfl, rfl⟩ | ⟨old, other⟩
    · rcases listed here' at' with ⟨rfl, _, rfl, _⟩ | ⟨_, other⟩
      · exact ⟨rfl, rfl⟩
      · exact absurd rfl other
    · rcases listed here' at' with ⟨_, _, _, rfl⟩ | ⟨old', _⟩
      · exact absurd rfl other
      · exact wired.once old old' at_ at'

-- What lies in the smaller trees stays where these stay.
theorem nestsKept {r' : Registry} (wired : Wired r) {bound : Nat}
    (kept : ∀ {id t}, r.get id = some t → t.magnitude ≤ bound → r'.get id = some t) {n : Octree} {q : Position} {m : Nat}
    {u : Tree} (at_ : At r q m u) (low : u.magnitude ≤ bound) (nests : Nests r n q) : Nests r' n q := by
  refine @nestsAlong r r' (fun q => ∃ m u, At r q m u ∧ u.magnitude ≤ bound) id ?_ ?_ ?_ (fun _ => rfl) ?_ _ _ nests
    ⟨m, u, at_, low⟩
  · rintro q i c ⟨m, u, at_, low⟩ octant found
    obtain ⟨below, s, rfl, there⟩ := wired.childAt at_ octant found
    refine ⟨below, s, there, ?_⟩
    have level := at_.level
    have level' := there.level
    have lod := at_.lod
    have lod' := there.lod
    unfold treeLevelToLod magnitudeToLod at lod lod'
    omega
  · rintro q ⟨m, u, at_, low⟩
    change dataIn r' q = dataIn r q
    rw [dataIn, kept at_.found low, dataIn, at_.found]
  · rintro q ⟨m, u, at_, low⟩ i _
    change toChild r' q i = _
    rw [Option.map_id, childOf (kept at_.found low), childOf at_.found]
    rfl
  · rintro q ⟨m, u, at_, low⟩ _ _
    exact ⟨rfl, by rw [kept at_.found low, at_.found]⟩

end

/-! ## The nested chain -/

def chainOf (c : Nat) : Nat → Nat → Octree → Octree
  | _, 0, below => below
  | lod, n + 1, below => linked (getChildMask lod c) (chainOf c (lod - 1) n below)

theorem nestedInner {c bottom above : Nat} (inner : (bottom + above + 1) % 5 ≠ 4) (below : Octree) (currentId : Nat) :
    TreeBuild.insertTreeInTree c bottom below (above + 1) currentId =
      (linked (getChildMask (bottom + above + 1) c) (TreeBuild.insertTreeInTree c bottom below above currentId).1,
        (TreeBuild.insertTreeInTree c bottom below above currentId).2) := by
  conv_lhs => unfold TreeBuild.insertTreeInTree
  dsimp only
  rw [if_neg inner, if_neg inner]
  rfl

theorem nestedRoot {c bottom above : Nat} (last : (bottom + above + 1) % 5 = 4) (below : Octree) (currentId : Nat) :
    TreeBuild.insertTreeInTree c bottom below (above + 1) currentId =
      (.tree (newTree currentId) (linked (getChildMask (bottom + above + 1) c)
        (TreeBuild.insertTreeInTree c bottom below above (currentId + 1)).1),
        (TreeBuild.insertTreeInTree c bottom below above (currentId + 1)).2) := by
  conv_lhs => unfold TreeBuild.insertTreeInTree
  dsimp only
  rw [if_pos last, if_pos last]
  rfl

theorem nestedFive {c bottom : Nat} (last : bottom % 5 = 4) (below : Octree) (above currentId : Nat) :
    TreeBuild.insertTreeInTree c bottom below (5 * (above + 1)) currentId =
      (.tree (newTree currentId) (chainOf c (bottom + 5 * (above + 1)) 5
        (TreeBuild.insertTreeInTree c bottom below (5 * above) (currentId + 1)).1),
        (TreeBuild.insertTreeInTree c bottom below (5 * above) (currentId + 1)).2) := by
  rw [show 5 * (above + 1) = 5 * above + 1 + 1 + 1 + 1 + 1 by omega, nestedRoot (by omega), nestedInner (by omega),
    nestedInner (by omega), nestedInner (by omega), nestedInner (by omega)]
  rfl

section
variable {r : Registry} {c : Nat}

theorem onlyNests {p q : Position} {mask : Nat} {below : Octree} (data : dataIn r p = some empty)
    (only : Only r p mask q) (kind : Octree.isNode below = decide (p.level < 4)) (under : Nests r below q) :
    Nests r (linked mask below) p := by
  refine nestsNode.mpr ⟨data, fun i _ none_ => ?_, fun i _ d found => ?_⟩
  · rw [only] at none_
    split at none_
    · cases none_
    · rename_i apart
      exact Function.update_of_ne (Ne.symm apart) _ _
  · rw [only] at found
    split at found
    · rename_i same
      cases found
      rw [← same, Function.update_self]
      exact ⟨kind, under⟩
    · cases found

theorem linkNests {t : Tree} {magnitude id sub : Nat} (found : r.get id = some t) (link : Link t c magnitude sub)
    {below : Octree} (kind : Octree.isNode below = false) (under : Nests r below (rootOf sub)) :
    Nests r (chainOf c t.lod 5 below) (rootOf id) := by
  have data : ∀ j < 5, dataIn r ⟨id, j, 0⟩ = some empty := by
    intro j level
    unfold dataIn
    rw [found]
    change ((t.levels j).data)[0]? = _
    rw [link.levels j level]
    rfl
  have from_ : ∀ n ≤ 4, Nests r (chainOf c (t.lod - (4 - n)) (n + 1) below) ⟨id, 4 - n, 0⟩ := by
    intro n
    induction n with
    | zero =>
      intro _
      exact onlyNests (data 4 (by decide)) (linkOnly found link (j := 4) (by decide)) kind under
    | succ n ih =>
      intro most
      have next := ih (by omega)
      have only := linkOnly found link (j := 4 - (n + 1)) (by omega)
      have inner : 4 - (n + 1) < 4 := by omega
      rw [if_pos inner, show 4 - (n + 1) + 1 = 4 - n by omega] at only
      refine onlyNests (data _ (by omega)) only (decide_eq_true inner).symm ?_
      rw [show t.lod - (4 - (n + 1)) - 1 = t.lod - (4 - n) by omega]
      exact next
  exact from_ 4 (Nat.le_refl 4)

end

/-! ## The chain -/

structure Chained (r r' : Registry) (parentId childId : Nat) (parent child : Tree) (info : TreeInfo) (top : Octree)
    (above : Nat) : Prop where
  wired : Wired r'
  kept : ∀ {id}, id < r.data.length → id ≠ parentId → r'.get id = r.get id
  nests : Nests r' (chainOf child.mortonMin parent.lod 5
    (TreeBuild.insertTreeInTree child.mortonMin child.lod (.tree info top) (5 * above) r.currentId).1) (rootOf parentId)
  counter : (TreeBuild.insertTreeInTree child.mortonMin child.lod (.tree info top) (5 * above) r.currentId).2 = r'.currentId
  root : ∃ sub, r'.get parentId = some (linkTree parent child.mortonMin sub)
  under : ∀ {m}, parent.magnitude ≤ m → Under r m → Under r' m

theorem chainChained {fuel above : Nat} (enough : above < fuel) {r : Registry} {parentId childId : Nat} {parent child : Tree}
    {info : TreeInfo} {top : Octree} (wired : Wired r) (found : r.get parentId = some parent)
    (foundChild : r.get childId = some child) (opened : Opened parent child.mortonMin)
    (difference : parent.magnitude = child.magnitude + above + 1) (aligned : Aligned (child.lod + 1) child.mortonMin)
    (free : Free r childId) (nests : Nests r (.tree info top) (rootOf childId)) :
    ∃ r', insertTreeInTree fuel r parentId childId = some r' ∧ Chained r r' parentId childId parent child info top above := by
  have last : child.lod % 5 = 4 := by
    unfold Tree.lod magnitudeToLod
    omega
  have cell : child.mortonMin = maskMin child.lod child.mortonMin := (floorOf aligned hasSelf).symm
  have small : At r (rootOf childId) child.lod child := wired.rootHere foundChild
  induction above generalizing fuel r parentId parent with
  | zero =>
    obtain ⟨fuel, rfl⟩ := Nat.exists_eq_succ_of_ne_zero (Nat.ne_of_gt enough)
    have gets := getSet (getInside found) (linkTree parent child.mortonMin childId)
    have known : (r.set parentId (linkTree parent child.mortonMin childId)).get parentId = some _ :=
      (gets parentId).trans (if_pos rfl)
    have below : Nests (r.set parentId (linkTree parent child.mortonMin childId)) (.tree info top) (rootOf childId) := by
      refine nestsKept wired (fun {id t} here low => ?_) small (Nat.le_refl _) nests
      rw [gets, if_neg]
      · exact here
      · rintro rfl
        obtain rfl : parent = t := Option.some.inj (found.symm.trans here)
        omega
    refine ⟨_, (insertOpened found foundChild opened).trans (if_pos difference),
      linkedWired wired found foundChild opened difference.symm cell free, fun {id} _ apart => (gets id).trans (if_neg apart),
      linkNests known (openedLink opened difference childId) rfl below, rfl, ⟨childId, known⟩, fun {m} most under => ?_⟩
    exact underSet found (linkSame parent child.mortonMin childId) under
  | succ above ih =>
    obtain ⟨fuel, rfl⟩ := Nat.exists_eq_succ_of_ne_zero (Nat.ne_of_gt (Nat.lt_of_le_of_lt (Nat.zero_le _) enough))
    obtain ⟨openedSub, magnitudeSub, idSub⟩ := subOpened parent child.mortonMin r.currentId
    have formedSub : Formed (treeInitializeSub parent child.mortonMin (blankTree r.currentId)) := by
      refine rootFormed rfl rfl ?_
      change getName 0 0 (getChildMask (magnitudeToLod (parent.magnitude - 1) + 1) child.mortonMin) = getName 0 0
        (getChildMask (magnitudeToLod (parent.magnitude - 1) + 1)
          (maskMin (magnitudeToLod (parent.magnitude - 1)) child.mortonMin))
      rw [maskDigit]
    have infoSub : infoOf (treeInitializeSub parent child.mortonMin (blankTree r.currentId)) = newTree r.currentId := rfl
    generalize made : treeInitializeSub parent child.mortonMin (blankTree r.currentId) = sub at *
    have numbered := wired.numbered
    have insideParent := getInside found
    have insideChild := getInside foundChild
    -- The new tree first, and then the one that lists it.
    let added := (treeCacheAddTree r).1.set r.currentId sub
    let next := added.set parentId (linkTree parent child.mortonMin r.currentId)
    have swapped : (((treeCacheAddTree r).1.set parentId (linkTree parent child.mortonMin r.currentId)).set r.currentId sub) =
        next := by
      change (⟨_, _⟩ : Registry) = ⟨_, _⟩
      congr 1
      exact List.set_comm _ _ (by omega)
    have getsAdded := addedGets wired sub
    have foundParent : added.get parentId = some parent := by rw [getsAdded, if_neg (by omega), found]
    have foundSub : added.get r.currentId = some sub := by rw [getsAdded, if_pos rfl]
    have wiredAdded : Wired added := addedWired wired idSub formedSub openedSub.subTrees
    have getsNext := getSet (getInside foundParent) (linkTree parent child.mortonMin r.currentId)
    have freeSub : Free added r.currentId := by
      intro other x u here at_
      rw [getsAdded] at here
      split at here
      · cases here
        rw [openedSub.subTrees] at at_
        cases at_
      · obtain ⟨s, link⟩ := wired.links here at_
        have inside := getInside link.found
        omega
    have wiredNext : Wired next := linkedWired wiredAdded foundParent foundSub opened (by omega) openedSub.range.1 freeSub
    have apart : childId ≠ parentId := by
      rintro rfl
      obtain rfl : child = parent := Option.some.inj (foundChild.symm.trans found)
      omega
    have knownParent : next.get parentId = some (linkTree parent child.mortonMin r.currentId) := (getsNext _).trans (if_pos rfl)
    have old : ∀ {id : Nat}, id < r.data.length → id ≠ parentId → next.get id = r.get id := by
      intro id within other
      rw [getsNext, if_neg other, getsAdded, if_neg (by omega)]
    have knownSub : next.get r.currentId = some sub := by rw [getsNext, if_neg (by omega), foundSub]
    have knownChild : next.get childId = some child := (old insideChild apart).trans foundChild
    have freeNext : Free next childId := by
      intro other x u here at_
      rw [getsNext] at here
      split at here
      · cases here
        obtain ⟨_, equal⟩ := List.getElem?_eq_some_iff.mp at_
        have zero : x = 0 := by
          have inside := (List.getElem?_eq_some_iff.mp at_).1
          change x < 1 at inside
          omega
        subst zero
        change r.currentId = childId at equal
        omega
      · rw [getsAdded] at here
        split at here
        · cases here
          rw [openedSub.subTrees] at at_
          cases at_
        · exact free here at_
    have nestsNext : Nests next (.tree info top) (rootOf childId) := by
      refine nestsKept wired (fun {id t} here low => ?_) small (Nat.le_refl _) nests
      rw [old (getInside here) ?_]
      · exact here
      · rintro rfl
        obtain rfl : parent = t := Option.some.inj (found.symm.trans here)
        omega
    have smallNext : At next (rootOf childId) child.lod child := ⟨knownChild, small.level, small.inside, small.lod⟩
    have deeper : sub.magnitude = child.magnitude + above + 1 := by omega
    obtain ⟨r', ran, chained⟩ := ih (Nat.lt_of_succ_lt_succ enough) wiredNext knownSub knownChild openedSub deeper freeNext
      nestsNext smallNext
    have lengthAdded : added.data.length = r.data.length + 1 := (List.length_set ..).trans (addLength r)
    have lengthNext : next.data.length = r.data.length + 1 := (List.length_set ..).trans lengthAdded
    have counterNext : next.currentId = r.currentId + 1 := rfl
    have stillParent : r'.get parentId = some (linkTree parent child.mortonMin r.currentId) := by
      rw [chained.kept (by omega) (by omega), knownParent]
    obtain ⟨sub2, subLinked⟩ := chained.root
    have lodSub : sub.lod = child.lod + 5 * (above + 1) := by
      unfold Tree.lod magnitudeToLod
      omega
    have nested := nestedFive last (c := child.mortonMin) (.tree info top) above r.currentId
    have below : Nests r' (TreeBuild.insertTreeInTree child.mortonMin child.lod (.tree info top) (5 * (above + 1)) r.currentId).1
        (rootOf r.currentId) := by
      rw [nested]
      refine ⟨rfl, rfl, rfl, ?_, ?_⟩
      · change (r'.get r.currentId).map infoOf = _
        rw [subLinked, Option.map_some, ← infoSub]
        rfl
      · rw [← lodSub]
        exact chained.nests
    refine ⟨r', ?_, chained.wired, fun {id} within other => ?_, linkNests stillParent (openedLink opened rfl r.currentId)
      (by rw [nested]; rfl) below, ?_, ⟨_, stillParent⟩, fun {m} most under => ?_⟩
    · rw [insertOpened found foundChild opened, if_neg (by omega), made, swapped]
      exact ran
    · rw [chained.kept (by omega) (by omega)]
      exact old within other
    · rw [nested]
      exact chained.counter
    · refine chained.under (by omega) fun {id t} here => ?_
      rw [getsNext] at here
      split at here
      · cases here
        exact most
      · rw [getsAdded] at here
        split at here
        · cases here
          omega
        · exact under here

end Dewfall.ArrayReparent
