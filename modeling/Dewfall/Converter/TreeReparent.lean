import Dewfall.Converter.TreeRegistry

/-! Re-parenting over the arrays of the trees: a larger root with a chain of nodes and of new trees down to the old
root. A tree's five levels are lists of nodes, skip counts, names and data; positions are taken to be inside them
as the source asserts. A shift past the code's width gives no result. The debug shadow arrays and what the
registry keeps beside the trees are left out. -/
namespace Dewfall.TreeReparent
open General General.Cells StorageMap PointSplitter MortonTree TreeGraft TreeRegistry

structure Level where
  nodes : List Nat
  skips : List Nat
  nodeIds : List Nat
  data : List Collection

structure Tree where
  id : Nat
  magnitude : Nat
  mortonMin : Nat
  mortonMax : Nat
  levels : Nat → Level
  subTrees : List Nat
  isDirty : Bool
  leavesCollapsed : Bool
  storageMap : InputStorageMap

def Tree.lod (t : Tree) : Nat := magnitudeToLod t.magnitude

-- A tree that is not loaded is a null pointer.
structure Registry where
  data : List (Option Tree)
  currentId : Nat

def Registry.get (r : Registry) (id : Nat) : Option Tree := r.data[id]?.join

def Registry.set (r : Registry) (id : Nat) (t : Tree) : Registry := { r with data := r.data.set id (some t) }

def blankLevel : Level := ⟨[], [], [], []⟩
def blankTree (id : Nat) : Tree := ⟨id, 0, 0, 0, fun _ => blankLevel, [], false, false, StorageMap.fresh⟩

def treeCacheAddTree (r : Registry) : Registry × Tree :=
  (⟨r.data ++ [some (blankTree r.currentId)], r.currentId + 1⟩, blankTree r.currentId)

def getName (parent level childIndex : Nat) : Nat := parent ||| childIndex <<< ((4 - level) * 3)

def setLevel (t : Tree) (i : Nat) (l : Level) : Tree := { t with levels := Function.update t.levels i l }

def pushRoot (t : Tree) (name : Nat) : Tree :=
  let l := t.levels 0
  setLevel t 0 ⟨l.nodes ++ [0], l.skips ++ [0], l.nodeIds ++ [name], l.data ++ [empty]⟩

def treeInitializeSub (parentTree : Tree) (morton : Nat) (subTree : Tree) : Tree :=
  let magnitude := parentTree.magnitude - 1
  let lod := magnitudeToLod magnitude
  pushRoot { subTree with
    magnitude := magnitude
    mortonMin := maskMin lod morton
    mortonMax := maskMax lod morton } (getName 0 0 (getChildMask (lod + 1) morton))

def treeInitializeNewParent (someChild : Tree) (possibleMin possibleMax : Nat) (newParent : Tree) : Option Tree :=
  let newMin := if someChild.mortonMin < possibleMin then someChild.mortonMin else possibleMin
  let newMax := if someChild.mortonMax < possibleMax then possibleMax else someChild.mortonMax
  let magnitude := mortonMagnitude newMin newMax
  let lod := magnitudeToLod magnitude
  if 12 ≤ magnitude then none
  else some (pushRoot { newParent with
    magnitude := magnitude
    mortonMin := maskMin lod newMin
    mortonMax := maskMax lod (maskMin lod newMin) } (getName 0 0 (getChildMask (lod + 1) someChild.mortonMin)))

def countSkips (node index : Nat) : Nat := ((List.range index).filter fun i => node.testBit i).length

def allocChildren (t : Tree) (level skip : Nat) : Tree :=
  let l := t.levels level
  let oldSkip := if skip < l.skips.length then l.skips.getD skip 0
    else if 0 < skip ∧ skip = l.skips.length then l.skips.getLastD 0 + countSkips (l.nodes.getLastD 0) 8 else 0
  setLevel t level ⟨l.nodes.insertIdx skip 0, l.skips.insertIdx skip oldSkip, l.nodeIds.insertIdx skip 0,
    l.data.insertIdx skip empty⟩

def increaseSkips (t : Tree) (level skip : Nat) : Tree :=
  let l := t.levels level
  setLevel t level { l with skips := l.skips.mapIdx fun i s => if skip < i then s + 1 else s }

def setNode (t : Tree) (level skip node : Nat) : Tree :=
  setLevel t level { t.levels level with nodes := (t.levels level).nodes.set skip node }

def setName (t : Tree) (level skip name : Nat) : Tree :=
  setLevel t level { t.levels level with nodeIds := (t.levels level).nodeIds.set skip name }

def addSubTree (t : Tree) (place subTree : Nat) : Tree := { t with subTrees := t.subTrees.insertIdx place subTree }

structure Cursor where
  parent : Tree
  currentSkip : Nat
  currentName : Nat

-- The name is that of the last node made; a child that is there already does not change it.
def descend (childMin : Nat) (s : Cursor) (i : Nat) : Option Cursor :=
  let l := s.parent.levels i
  match l.nodes[s.currentSkip]?, l.skips[s.currentSkip]? with
  | some node, some skips =>
    let childMask := getChildMask (s.parent.lod - i) childMin
    let newChildSkip := skips + countSkips node childMask
    if node.testBit childMask then some { s with currentSkip := newChildSkip }
    else
      let parent := setNode s.parent i s.currentSkip (node ||| 1 <<< childMask)
      let parent := increaseSkips (allocChildren parent (i + 1) newChildSkip) i s.currentSkip
      let name := getName s.currentName (i + 1) childMask
      some ⟨setName parent (i + 1) newChildSkip name, newChildSkip, name⟩
  | _, _ => none

-- The sub-tree is placed by the node's own number on the last level, not by its skip count.
def insertTreeInTree : Nat → Registry → Nat → Nat → Option Registry
  | 0, _, _, _ => none
  | fuel + 1, r, parentId, childId =>
    match r.get parentId, r.get childId with
    | some parent, some child =>
      let start : Cursor := ⟨parent, 0, (parent.levels 0).nodeIds.headD 0⟩
      match (List.range 4).foldlM (descend child.mortonMin) start with
      | none => none
      | some s =>
        match (s.parent.levels 4).nodes[s.currentSkip]? with
        | none => none
        | some node =>
          let childMask := getChildMask (s.parent.lod - 4) child.mortonMin
          let place := s.currentSkip + countSkips node childMask
          if node.testBit childMask then
            match s.parent.subTrees[place]? with
            | none => none
            | some subTree => insertTreeInTree fuel (r.set parentId s.parent) subTree childId
          else
            let parent := setNode s.parent 4 s.currentSkip (node ||| 1 <<< childMask)
            let hang (subTree : Nat) := increaseSkips (addSubTree parent place subTree) 4 s.currentSkip
            if parent.magnitude = child.magnitude + 1 then some (r.set parentId (hang childId))
            else
              let (r, subTree) := treeCacheAddTree r
              let sub := treeInitializeSub parent child.mortonMin subTree
              insertTreeInTree fuel ((r.set parentId (hang sub.id)).set sub.id sub) sub.id childId
    | _, _ => none

-- A magnitude is a byte, which bounds the recursion.
def reparentTree (r : Registry) (treeId possibleMin possibleMax : Nat) : Option (Registry × Nat) :=
  match r.get treeId with
  | none => none
  | some tree =>
    let (r, newParent) := treeCacheAddTree r
    match treeInitializeNewParent tree possibleMin possibleMax newParent with
    | none => none
    | some newParent =>
      (insertTreeInTree 256 (r.set newParent.id newParent) newParent.id treeId).map fun r => (r, newParent.id)

/-! ## Walking down the trees -/

structure Position where
  tree : Nat
  level : Nat
  index : Nat
  deriving DecidableEq

def toChild (r : Registry) (p : Position) (octant : Nat) : Option Position :=
  match r.get p.tree with
  | none => none
  | some t =>
    let l := t.levels p.level
    match l.nodes[p.index]?, l.skips[p.index]? with
    | some node, some skips =>
      if node.testBit octant then
        let index := skips + countSkips node octant
        if p.level < 4 then some ⟨p.tree, p.level + 1, index⟩
        else t.subTrees[index]?.map fun sub => ⟨sub, 0, 0⟩
      else none
    | _, _ => none

def walk (r : Registry) (p : Position) (octants : List Nat) : Option Position := octants.foldlM (toChild r) p

def rootOf (id : Nat) : Position := ⟨id, 0, 0⟩

-- Where the cell of a node starts, from the cell of the root the walk began at.
def cellMin : Nat → Nat → List Nat → Nat
  | _, min, [] => min
  | lod, min, octant :: rest => cellMin (lod - 1) (setChildMask lod octant min) rest

-- The octants of a code from one level on down.
def path (c lod : Nat) : Nat → List Nat
  | 0 => []
  | steps + 1 => getChildMask lod c :: path c (lod - 1) steps

/-! ## A new tree as the chain goes through it -/

def pathName (lod c : Nat) : Nat → Nat
  | 0 => getName 0 0 (getChildMask (lod + 1) c)
  | level + 1 => getName (pathName lod c level) (level + 1) (getChildMask (lod - level) c)

def openLevel (lod c i : Nat) : Level := ⟨[0], [0], [pathName lod c i], [empty]⟩

-- One node with one child, towards the code.
def linkLevel (lod c i : Nat) : Level := ⟨[1 <<< getChildMask (lod - i) c], [0], [pathName lod c i], [empty]⟩

def chainTo (lod c i : Nat) : Nat → Level := fun j =>
  if j < i then linkLevel lod c j else if j = i then openLevel lod c i else blankLevel

theorem chainLinked {lod c i j : Nat} (before : j < i) : chainTo lod c i j = linkLevel lod c j := if_pos before

theorem chainOpen (lod c i : Nat) : chainTo lod c i i = openLevel lod c i :=
  (if_neg (Nat.lt_irrefl i)).trans (if_pos rfl)

theorem chainBlank {lod c i j : Nat} (after : i < j) : chainTo lod c i j = blankLevel :=
  (if_neg (Nat.lt_asymm after)).trans (if_neg (Nat.ne_of_gt after))

theorem chainNext (lod c i : Nat) : Function.update (Function.update (chainTo lod c i) i (linkLevel lod c i)) (i + 1)
    (openLevel lod c (i + 1)) = chainTo lod c (i + 1) := by
  funext j
  by_cases top : j = i + 1
  · rw [top, Function.update_self, chainOpen]
  · rw [Function.update_of_ne top]
    by_cases own : j = i
    · rw [own, Function.update_self, chainLinked (Nat.lt_succ_self i)]
    · rw [Function.update_of_ne own]
      by_cases before : j < i
      · rw [chainLinked before, chainLinked (Nat.lt_succ_of_lt before)]
      · rw [chainBlank (by omega), chainBlank (by omega)]

theorem countNone (index : Nat) : countSkips 0 index = 0 := by simp [countSkips]

theorem pushRootChain (t : Tree) (c : Nat) (blank : t.levels = fun _ => blankLevel) :
    pushRoot t (getName 0 0 (getChildMask (t.lod + 1) c)) = { t with levels := chainTo t.lod c 0 } := by
  have levels : Function.update t.levels 0 (openLevel t.lod c 0) = chainTo t.lod c 0 := by
    funext j
    by_cases first : j = 0
    · rw [first, Function.update_self, chainOpen]
    · rw [Function.update_of_ne first, blank, chainBlank (Nat.pos_of_ne_zero first)]
  rw [← levels, pushRoot, setLevel, blank]
  rfl

theorem setLevelSelf (t : Tree) (i : Nat) (l : Level) : (setLevel t i l).levels i = l := Function.update_self ..

theorem setLevelTwice (t : Tree) (i : Nat) (l l' : Level) : setLevel (setLevel t i l) i l' = setLevel t i l' := by
  unfold setLevel
  rw [Function.update_idem]

theorem allocBlank {t : Tree} {level : Nat} (blank : t.levels level = blankLevel) :
    allocChildren t level 0 = setLevel t level ⟨[0], [0], [0], [empty]⟩ := by
  unfold allocChildren
  rw [blank]
  rfl

theorem increaseOnly {t : Tree} {level : Nat} (only : (t.levels level).skips = [0]) : increaseSkips t level 0 = t := by
  have same : { t.levels level with skips := [0] } = t.levels level := by rw [← only]
  unfold increaseSkips setLevel
  dsimp only
  rw [only]
  change { t with levels := Function.update t.levels level { t.levels level with skips := [0] } } = t
  rw [same, Function.update_eq_self]

theorem descendChain {t : Tree} {c i : Nat} (levels : t.levels = chainTo t.lod c i) :
    descend c ⟨t, 0, pathName t.lod c i⟩ i =
      some ⟨{ t with levels := chainTo t.lod c (i + 1) }, 0, pathName t.lod c (i + 1)⟩ := by
  have here : t.levels i = openLevel t.lod c i := by rw [levels, chainOpen]
  have next : t.levels (i + 1) = blankLevel := by rw [levels, chainBlank (Nat.lt_succ_self i)]
  have apart : i + 1 ≠ i := Nat.succ_ne_self i
  have linked : setNode t i 0 (0 ||| 1 <<< getChildMask (t.lod - i) c) = setLevel t i (linkLevel t.lod c i) := by
    unfold setNode
    rw [here, Nat.zero_or]
    rfl
  have alloc : allocChildren (setLevel t i (linkLevel t.lod c i)) (i + 1) 0 =
      setLevel (setLevel t i (linkLevel t.lod c i)) (i + 1) ⟨[0], [0], [0], [empty]⟩ :=
    allocBlank ((Function.update_of_ne apart _ _).trans next)
  have increased : increaseSkips (setLevel (setLevel t i (linkLevel t.lod c i)) (i + 1) ⟨[0], [0], [0], [empty]⟩) i 0 =
      setLevel (setLevel t i (linkLevel t.lod c i)) (i + 1) ⟨[0], [0], [0], [empty]⟩ := by
    refine increaseOnly ?_
    change (Function.update (Function.update t.levels i _) (i + 1) _ i).skips = [0]
    rw [Function.update_of_ne (Ne.symm apart), Function.update_self]
    rfl
  have named : setName (setLevel (setLevel t i (linkLevel t.lod c i)) (i + 1) ⟨[0], [0], [0], [empty]⟩) (i + 1) 0
      (pathName t.lod c (i + 1)) = { t with levels := chainTo t.lod c (i + 1) } := by
    unfold setName
    rw [setLevelSelf, setLevelTwice, ← chainNext, ← levels]
    rfl
  unfold descend
  simp only [here, openLevel, List.getElem?_cons_zero, countNone, Nat.add_zero, Nat.zero_testBit, Bool.false_eq_true,
    if_false]
  rw [linked, alloc, increased]
  exact congrArg (fun parent => some (⟨parent, 0, pathName t.lod c (i + 1)⟩ : Cursor)) named

theorem loopChain {t : Tree} {c : Nat} (levels : t.levels = chainTo t.lod c 0) (n : Nat) :
    (List.range n).foldlM (descend c) ⟨t, 0, pathName t.lod c 0⟩ =
      some ⟨{ t with levels := chainTo t.lod c n }, 0, pathName t.lod c n⟩ := by
  induction n with
  | zero =>
    rw [← levels]
    rfl
  | succ n ih =>
    have next := @descendChain { t with levels := chainTo t.lod c n } c n rfl
    rw [List.range_succ, List.foldlM_append, ih]
    change (descend c ⟨{ t with levels := chainTo t.lod c n }, 0, pathName t.lod c n⟩ n).bind some = _
    exact (congrArg (fun s => Option.bind s some) next)

-- The tree once the chain has gone through it to the sub-tree.
def linkTree (t : Tree) (c subTree : Nat) : Tree :=
  { t with levels := Function.update (chainTo t.lod c 4) 4 (linkLevel t.lod c 4), subTrees := [subTree] }

theorem linkTreeLevel (t : Tree) (c subTree : Nat) {j : Nat} (level : j < 5) :
    (linkTree t c subTree).levels j = linkLevel t.lod c j := by
  unfold linkTree
  by_cases last : j = 4
  · rw [last]
    exact @Function.update_self Nat _ _ 4 (linkLevel t.lod c 4) (chainTo t.lod c 4)
  · exact (Function.update_of_ne last _ _).trans (chainLinked (by omega))

theorem hangChain {t : Tree} {c : Nat} (subTree : Nat) (levels : t.levels = chainTo t.lod c 4) (noSubTrees : t.subTrees = []) :
    increaseSkips (addSubTree (setNode t 4 0 (0 ||| 1 <<< getChildMask (t.lod - 4) c)) 0 subTree) 4 0 =
      linkTree t c subTree := by
  have linked : setNode t 4 0 (0 ||| 1 <<< getChildMask (t.lod - 4) c) = setLevel t 4 (linkLevel t.lod c 4) := by
    unfold setNode
    rw [levels, chainOpen, Nat.zero_or]
    rfl
  have only : ((addSubTree (setLevel t 4 (linkLevel t.lod c 4)) 0 subTree).levels 4).skips = [0] := by
    change ((setLevel t 4 (linkLevel t.lod c 4)).levels 4).skips = [0]
    rw [setLevelSelf]
    rfl
  rw [linked, increaseOnly only, linkTree, ← levels]
  unfold addSubTree setLevel
  rw [noSubTrees]
  rfl

/-! ## The registry -/

theorem getSet {r : Registry} {id : Nat} (inside : id < r.data.length) (t : Tree) (other : Nat) :
    (r.set id t).get other = if other = id then some t else r.get other := by
  unfold Registry.get Registry.set
  rw [List.getElem?_set]
  by_cases own : id = other
  · subst own
    simp [inside]
  · rw [if_neg own, if_neg (Ne.symm own)]

theorem getInside {r : Registry} {id : Nat} {t : Tree} (found : r.get id = some t) : id < r.data.length := by
  by_contra beyond
  unfold Registry.get at found
  rw [List.getElem?_eq_none (Nat.le_of_not_lt beyond)] at found
  cases found

theorem getAdd {r : Registry} {id : Nat} (inside : id < r.data.length) : (treeCacheAddTree r).1.get id = r.get id := by
  unfold Registry.get treeCacheAddTree
  dsimp only
  rw [List.getElem?_append_left inside]

theorem addLength (r : Registry) : (treeCacheAddTree r).1.data.length = r.data.length + 1 := List.length_append

/-! ## The chain of trees -/

/-- A tree whose only way down is the way to `c`, and `subTree` at its end. -/
structure Link (t : Tree) (c magnitude subTree : Nat) : Prop where
  magnitude : t.magnitude = magnitude
  range : t.mortonMin = maskMin t.lod c ∧ t.mortonMax = maskMax t.lod c
  levels : ∀ j, j < 5 → t.levels j = linkLevel t.lod c j
  subTrees : t.subTrees = [subTree]

-- As many trees as given above the first one, and below the last one the tree they lead to.
def Chain (r : Registry) (c child bottom : Nat) : Nat → Nat → Prop
  | 0, id => ∃ t, r.get id = some t ∧ Link t c (bottom + 1) child
  | above + 1, id => ∃ t sub, r.get id = some t ∧ Link t c (bottom + above + 2) sub ∧ Chain r c child bottom above sub

structure Opened (t : Tree) (c : Nat) : Prop where
  range : t.mortonMin = maskMin t.lod c ∧ t.mortonMax = maskMax t.lod c
  levels : t.levels = chainTo t.lod c 0
  subTrees : t.subTrees = []

theorem openedLink {t : Tree} {c magnitude : Nat} (opened : Opened t c) (same : t.magnitude = magnitude) (subTree : Nat) :
    Link (linkTree t c subTree) c magnitude subTree where
  magnitude := same
  range := opened.range
  levels _ level := linkTreeLevel t c subTree level
  subTrees := rfl

theorem subOpened (parent : Tree) (c id : Nat) : Opened (treeInitializeSub parent c (blankTree id)) c ∧
    (treeInitializeSub parent c (blankTree id)).magnitude = parent.magnitude - 1 ∧
    (treeInitializeSub parent c (blankTree id)).id = id := by
  let t : Tree := { blankTree id with
    magnitude := parent.magnitude - 1
    mortonMin := maskMin (magnitudeToLod (parent.magnitude - 1)) c
    mortonMax := maskMax (magnitudeToLod (parent.magnitude - 1)) c }
  have made : treeInitializeSub parent c (blankTree id) = { t with levels := chainTo t.lod c 0 } := pushRootChain t c rfl
  rw [made]
  exact ⟨⟨⟨rfl, rfl⟩, rfl, rfl⟩, rfl, rfl⟩

theorem insertOpened {fuel : Nat} {r : Registry} {parentId childId : Nat} {parent child : Tree}
    (found : r.get parentId = some parent) (foundChild : r.get childId = some child)
    (opened : Opened parent child.mortonMin) : insertTreeInTree (fuel + 1) r parentId childId =
      if parent.magnitude = child.magnitude + 1 then some (r.set parentId (linkTree parent child.mortonMin childId))
      else insertTreeInTree fuel ((((treeCacheAddTree r).1.set parentId (linkTree parent child.mortonMin r.currentId)).set
        r.currentId (treeInitializeSub parent child.mortonMin (blankTree r.currentId)))) r.currentId childId := by
  have loop := loopChain opened.levels 4
  have name : (parent.levels 0).nodeIds.headD 0 = pathName parent.lod child.mortonMin 0 := by
    rw [opened.levels, chainOpen]
    rfl
  have hung := fun sub => @hangChain { parent with levels := chainTo parent.lod child.mortonMin 4 } child.mortonMin sub rfl
    opened.subTrees
  have last : (chainTo parent.lod child.mortonMin 4 4).nodes[0]? = some 0 := by rw [chainOpen]; rfl
  conv_lhs => unfold insertTreeInTree
  rw [found, foundChild]
  dsimp only
  rw [name, loop]
  dsimp only
  rw [last]
  simp only [countNone, Nat.add_zero, Nat.zero_testBit, Bool.false_eq_true, if_false]
  refine if_congr Iff.rfl (congrArg (fun t => some (r.set parentId t)) (hung childId)) ?_
  rw [hung]
  rfl

theorem insertChain {fuel above : Nat} (enough : above < fuel) {r : Registry} {parentId childId : Nat} {parent child : Tree}
    (numbered : r.currentId = r.data.length) (found : r.get parentId = some parent) (foundChild : r.get childId = some child)
    (apart : parentId ≠ childId) (opened : Opened parent child.mortonMin)
    (difference : parent.magnitude = child.magnitude + above + 1) :
    ∃ r', insertTreeInTree fuel r parentId childId = some r' ∧
      (∀ id, id < r.data.length → id ≠ parentId → r'.get id = r.get id) ∧
      ∃ t sub, r'.get parentId = some t ∧ t = linkTree parent child.mortonMin sub ∧
        Chain r' child.mortonMin childId child.magnitude above parentId := by
  induction above generalizing fuel r parentId parent with
  | zero =>
    obtain ⟨fuel, rfl⟩ := Nat.exists_eq_succ_of_ne_zero (Nat.ne_of_gt enough)
    have inside := getInside found
    refine ⟨_, (insertOpened found foundChild opened).trans (if_pos difference), fun id _ other => ?_,
      linkTree parent child.mortonMin childId, childId, ?_, rfl, linkTree parent child.mortonMin childId, ?_,
      openedLink opened difference childId⟩
    · rw [getSet inside, if_neg other]
    · rw [getSet inside, if_pos rfl]
    · rw [getSet inside, if_pos rfl]
  | succ above ih =>
    obtain ⟨fuel, rfl⟩ := Nat.exists_eq_succ_of_ne_zero (Nat.ne_of_gt (Nat.lt_of_le_of_lt (Nat.zero_le _) enough))
    obtain ⟨openedSub, magnitudeSub, _⟩ := subOpened parent child.mortonMin r.currentId
    generalize made : treeInitializeSub parent child.mortonMin (blankTree r.currentId) = sub at openedSub magnitudeSub
    let added := (treeCacheAddTree r).1
    let linked := added.set parentId (linkTree parent child.mortonMin r.currentId)
    let next := linked.set r.currentId sub
    have insideParent : parentId < r.data.length := getInside found
    have insideChild : childId < r.data.length := getInside foundChild
    have addedLength : added.data.length = r.data.length + 1 := addLength r
    have linkedLength : linked.data.length = r.data.length + 1 := (List.length_set ..).trans addedLength
    have nextLength : next.data.length = r.data.length + 1 := (List.length_set ..).trans linkedLength
    have gets : ∀ id, next.get id = if id = r.currentId then some sub
        else if id = parentId then some (linkTree parent child.mortonMin r.currentId) else added.get id := by
      intro id
      rw [getSet (by omega), getSet (by omega)]
    have foundSub : next.get r.currentId = some sub := (gets _).trans (if_pos rfl)
    have old : ∀ id, id < r.data.length → id ≠ parentId → next.get id = r.get id := by
      intro id within other
      rw [gets, if_neg (by omega), if_neg other]
      exact getAdd within
    have stillChild : next.get childId = some child := (old childId insideChild (Ne.symm apart)).trans foundChild
    obtain ⟨r', ran, kept, _, _, _, _, chain⟩ := @ih fuel (by omega) next r.currentId sub (by
        change r.currentId + 1 = next.data.length
        omega) foundSub stillChild (by omega) openedSub (by omega)
    have stillParent : r'.get parentId = some (linkTree parent child.mortonMin r.currentId) := by
      rw [kept parentId (by omega) (by omega), gets, if_neg (by omega), if_pos rfl]
    refine ⟨r', ?_, fun id within other => ?_, _, r.currentId, stillParent, rfl, _, r.currentId, stillParent,
      openedLink opened (by omega) r.currentId, chain⟩
    · rw [insertOpened found foundChild opened, if_neg (by omega), made]
      exact ran
    · rw [kept id (by omega) (by omega)]
      exact old id within other

/-! ## The way down the chain -/

theorem linkBit (mask o : Nat) : (1 <<< mask).testBit o = decide (mask = o) := by
  rw [Nat.one_shiftLeft, Nat.testBit_two_pow]

theorem linkSkips (mask : Nat) : countSkips (1 <<< mask) mask = 0 := by
  unfold countSkips
  rw [List.length_eq_zero_iff, List.filter_eq_nil_iff]
  intro i mem
  rw [linkBit, decide_eq_true_eq]
  exact Nat.ne_of_gt (List.mem_range.mp mem)

/-- The only way down from `p` is by `octant`, to `q`. -/
def Only (r : Registry) (p : Position) (octant : Nat) (q : Position) : Prop :=
  ∀ o, toChild r p o = if octant = o then some q else none

inductive Corridor (r : Registry) : Position → List Nat → Position → Prop where
  | nil (p) : Corridor r p [] p
  | cons {p octant q octants s} (first : Only r p octant q) (rest : Corridor r q octants s) :
      Corridor r p (octant :: octants) s

section
variable {r : Registry} {p q s : Position} {octants more : List Nat}

theorem corridorAppend (first : Corridor r p octants q) (second : Corridor r q more s) : Corridor r p (octants ++ more) s := by
  induction first with
  | nil => exact second
  | cons step _ ih => exact .cons step (ih second)

theorem walkAppend (r : Registry) (p : Position) (octants more : List Nat) :
    walk r p (octants ++ more) = (walk r p octants).bind fun q => walk r q more := List.foldlM_append

theorem corridorWalk (way : Corridor r p octants q) : walk r p octants = some q := by
  induction way with
  | nil => rfl
  | cons step _ ih =>
    unfold walk
    rw [List.foldlM_cons, step, if_pos rfl]
    exact ih

theorem corridorOnly (way : Corridor r p octants q) (walked : walk r p more = some s) :
    more <+: octants ∨ ∃ rest, more = octants ++ rest ∧ walk r q rest = some s := by
  induction way generalizing more with
  | nil => exact Or.inr ⟨more, rfl, walked⟩
  | @cons p octant q octants last step _ ih =>
    cases more with
    | nil => exact Or.inl List.nil_prefix
    | cons o more =>
      unfold walk at walked
      rw [List.foldlM_cons, step] at walked
      by_cases same : octant = o
      · subst same
        rw [if_pos rfl] at walked
        rcases ih walked with before | ⟨rest, rfl, onward⟩
        · exact Or.inl (List.cons_prefix_cons.mpr ⟨rfl, before⟩)
        · exact Or.inr ⟨rest, rfl, onward⟩
      · rw [if_neg same] at walked
        cases walked

end

section
variable {r : Registry} {c : Nat}

theorem linkOnly {t : Tree} {magnitude id sub : Nat} (found : r.get id = some t) (link : Link t c magnitude sub) {j : Nat}
    (level : j < 5) : Only r ⟨id, j, 0⟩ (getChildMask (t.lod - j) c) (if j < 4 then ⟨id, j + 1, 0⟩ else ⟨sub, 0, 0⟩) := by
  intro o
  unfold toChild
  simp only [found, link.levels j level, linkLevel, List.getElem?_cons_zero, linkBit, decide_eq_true_eq]
  by_cases same : getChildMask (t.lod - j) c = o
  · rw [if_pos same, if_pos same, ← same, linkSkips]
    by_cases inner : j < 4
    · rw [if_pos inner, if_pos inner]
    · rw [if_neg inner, if_neg inner, link.subTrees]
      rfl
  · rw [if_neg same, if_neg same]

theorem pathAppend (lod first second : Nat) : path c lod (first + second) = path c lod first ++ path c (lod - first) second := by
  induction first generalizing lod with
  | zero =>
    rw [Nat.zero_add]
    rfl
  | succ first ih =>
    rw [Nat.succ_add, path, ih, Nat.sub_sub, Nat.add_comm 1 first]
    rfl

theorem linkCorridor {t : Tree} {magnitude id sub : Nat} (found : r.get id = some t) (link : Link t c magnitude sub) :
    Corridor r (rootOf id) (path c t.lod 5) (rootOf sub) :=
  .cons (linkOnly found link (j := 0) (by decide)) (.cons (linkOnly found link (j := 1) (by decide))
    (.cons (linkOnly found link (j := 2) (by decide)) (.cons (linkOnly found link (j := 3) (by decide))
      (.cons (linkOnly found link (j := 4) (by decide)) (.nil _)))))

theorem chainCorridor {child bottom above id : Nat} (chain : Chain r c child bottom above id) :
    Corridor r (rootOf id) (path c (magnitudeToLod (bottom + above + 1)) (5 * (above + 1))) (rootOf child) := by
  induction above generalizing id with
  | zero =>
    obtain ⟨t, found, link⟩ := chain
    have way := linkCorridor found link
    rwa [Tree.lod, link.magnitude] at way
  | succ above ih =>
    obtain ⟨t, sub, found, link, below⟩ := chain
    have way := corridorAppend (linkCorridor found link) (ih below)
    have lower : t.lod - 5 = magnitudeToLod (bottom + above + 1) := by
      rw [Tree.lod, link.magnitude]
      unfold magnitudeToLod
      omega
    rw [← lower, ← pathAppend, Tree.lod, link.magnitude] at way
    rwa [show 5 * (above + 1 + 1) = 5 + 5 * (above + 1) by ring]

end

/-! ## Cells along the way -/

theorem cellPath (c : Nat) {lod k : Nat} (within : k ≤ lod + 1) :
    cellMin lod (floor (lod + 1) c) (path c lod k) = floor (lod + 1 - k) c := by
  induction k generalizing lod with
  | zero => rfl
  | succ k ih =>
    rw [path, cellMin, setChild (floorAligned (lod + 1) c), getChildMask, floorChild]
    cases lod with
    | zero =>
      obtain rfl : k = 0 := by omega
      rfl
    | succ lod =>
      rw [Nat.add_sub_cancel, ih (by omega)]
      congr 1
      omega

theorem cellAppend (lod min : Nat) (octants more : List Nat) :
    cellMin lod min (octants ++ more) = cellMin (lod - octants.length) (cellMin lod min octants) more := by
  induction octants generalizing lod min with
  | nil => rfl
  | cons octant octants ih =>
    rw [List.cons_append, cellMin, ih, List.length_cons, Nat.sub_sub, Nat.add_comm 1]
    rfl

theorem pathLength (c lod steps : Nat) : (path c lod steps).length = steps := by
  induction steps generalizing lod with
  | zero => rfl
  | succ steps ih => rw [path, List.length_cons, ih]

theorem walkKept {r r' : Registry} (kept : ∀ id, id < r.data.length → r'.get id = r.get id) {octants : List Nat}
    {p q : Position} (walked : walk r p octants = some q) : walk r' p octants = some q := by
  induction octants generalizing p with
  | nil => exact walked
  | cons octant octants ih =>
    unfold walk at walked ⊢
    rw [List.foldlM_cons] at walked ⊢
    obtain ⟨next, step, rest⟩ := Option.bind_eq_some_iff.mp walked
    have same : toChild r' p octant = some next := by
      cases found : r.get p.tree with
      | none =>
        unfold toChild at step
        rw [found] at step
        cases step
      | some t =>
        unfold toChild at step ⊢
        rw [kept p.tree (getInside found)]
        exact step
    rw [same]
    exact ih rest

/-! ## Re-parenting the root -/

/-- The root tree of the registry, with the cell of its magnitude as its range. -/
structure RootTree (r : Registry) (treeId : Nat) (tree : Tree) : Prop where
  found : r.get treeId = some tree
  numbered : r.currentId = r.data.length
  aligned : Aligned (tree.lod + 1) tree.mortonMin
  stop : tree.mortonMax = tree.mortonMin + (8 ^ (tree.lod + 1) - 1)
  coded : tree.mortonMin + 8 ^ (tree.lod + 1) ≤ 8 ^ 64

structure Reparented (r : Registry) (treeId : Nat) (tree : Tree) (lo hi : Nat) (r' : Registry) (rootId : Nat)
    (root : Tree) : Prop where
  found : r'.get rootId = some root
  cell : root.magnitude < 12 ∧ Aligned (root.lod + 1) root.mortonMin ∧
    root.mortonMax = root.mortonMin + (8 ^ (root.lod + 1) - 1)
  containsTree : root.mortonMin ≤ tree.mortonMin ∧ tree.mortonMax ≤ root.mortonMax
  containsUnit : root.mortonMin ≤ lo ∧ hi ≤ root.mortonMax
  -- Every tree of the chain is one magnitude below the tree above it, and has the cell of its magnitude.
  chain : ∃ above, root.magnitude = tree.magnitude + above + 1 ∧
    Chain r' tree.mortonMin treeId tree.magnitude above rootId
  reached : walk r' (rootOf rootId) (path tree.mortonMin root.lod (root.lod - tree.lod)) = some (rootOf treeId)
  only : ∀ octants q, walk r' (rootOf rootId) octants = some q →
    octants <+: path tree.mortonMin root.lod (root.lod - tree.lod) ∨
      ∃ rest, octants = path tree.mortonMin root.lod (root.lod - tree.lod) ++ rest ∧ walk r' (rootOf treeId) rest = some q
  nested : ∀ k, k ≤ root.lod - tree.lod →
    cellMin root.lod root.mortonMin (path tree.mortonMin root.lod k) = floor (root.lod + 1 - k) tree.mortonMin
  kept : ∀ id, id < r.data.length → r'.get id = r.get id
  unmoved : ∀ octants q, walk r (rootOf treeId) octants = some q →
    walk r' (rootOf rootId) (path tree.mortonMin root.lod (root.lod - tree.lod) ++ octants) = some q ∧
      cellMin root.lod root.mortonMin (path tree.mortonMin root.lod (root.lod - tree.lod) ++ octants) =
        cellMin tree.lod tree.mortonMin octants

section
variable {r : Registry} {treeId : Nat} {tree : Tree} {lo hi : Nat}

theorem rootSmall (rooted : RootTree r treeId tree) : tree.magnitude < 12 := by
  have le : 8 ^ (tree.lod + 1) ≤ 8 ^ 64 := (Nat.le_add_left _ _).trans rooted.coded
  have power := (Nat.pow_le_pow_iff_right (by decide : 1 < 8)).mp le
  unfold Tree.lod magnitudeToLod at power
  omega

theorem magnitudeLtIff {a b : Nat} : mortonMagnitude a b < 12 ↔ a / 8 ^ 60 = b / 8 ^ 60 := by
  constructor
  · intro small
    refine lodSame ?_
    unfold mortonMagnitude at small
    omega
  · intro same
    have near := lodLt (by decide) same
    unfold mortonMagnitude
    omega

def unitedMin (tree : Tree) (lo : Nat) : Nat := if tree.mortonMin < lo then tree.mortonMin else lo
def unitedMax (tree : Tree) (hi : Nat) : Nat := if tree.mortonMax < hi then hi else tree.mortonMax

theorem unitedBounds (tree : Tree) (lo hi : Nat) : unitedMin tree lo ≤ tree.mortonMin ∧ unitedMin tree lo ≤ lo ∧
    tree.mortonMax ≤ unitedMax tree hi ∧ hi ≤ unitedMax tree hi := by
  unfold unitedMin unitedMax
  split <;> split <;> omega

theorem treeOrder (rooted : RootTree r treeId tree) : tree.mortonMin ≤ tree.mortonMax :=
  rooted.stop ▸ Nat.le_add_right ..

-- The new root's cell, once the codes agree above the sixtieth digit.
theorem unitedCell (rooted : RootTree r treeId tree) (outside : lo < tree.mortonMin ∨ tree.mortonMax < hi)
    (sameLo : lo / 8 ^ 60 = tree.mortonMin / 8 ^ 60) (sameHi : hi / 8 ^ 60 = tree.mortonMin / 8 ^ 60) :
    mortonMagnitude (unitedMin tree lo) (unitedMax tree hi) < 12 ∧
      tree.magnitude < mortonMagnitude (unitedMin tree lo) (unitedMax tree hi) ∧
      ∀ c, unitedMin tree lo ≤ c → c ≤ unitedMax tree hi →
        Has (magnitudeToLod (mortonMagnitude (unitedMin tree lo) (unitedMax tree hi)) + 1)
          (maskMin (magnitudeToLod (mortonMagnitude (unitedMin tree lo) (unitedMax tree hi))) (unitedMin tree lo)) c := by
  have small := rootSmall rooted
  have le : tree.lod + 1 ≤ 60 := by
    unfold Tree.lod magnitudeToLod
    omega
  have ground := floorAligned 60 tree.mortonMin
  have within := cellNested le ground (floorHas 60 tree.mortonMin)
  rw [floorOf rooted.aligned hasSelf] at within
  have own := (hasDiv ground).mp (floorHas 60 tree.mortonMin)
  have widened := widenedBy rooted.aligned within ((hasDiv ground).mpr (sameLo.trans own))
    ((hasDiv ground).mpr (sameHi.trans own)) (rooted.stop ▸ outside)
  rw [← rooted.stop] at widened
  obtain ⟨bounded, spanned⟩ := spannedBy ground widened.first widened.last
  refine ⟨bounded, ?_, spanned.covers⟩
  have more := widened.more
  change tree.lod + 1 ≤ mortonLod (unitedMin tree lo) (unitedMax tree hi) at more
  unfold Tree.lod magnitudeToLod at more
  unfold mortonMagnitude
  omega

theorem newParentOpened (id : Nat) (small : mortonMagnitude (unitedMin tree lo) (unitedMax tree hi) < 12)
    (covers : Has (magnitudeToLod (mortonMagnitude (unitedMin tree lo) (unitedMax tree hi)) + 1)
      (maskMin (magnitudeToLod (mortonMagnitude (unitedMin tree lo) (unitedMax tree hi))) (unitedMin tree lo))
      tree.mortonMin) : ∃ root, treeInitializeNewParent tree lo hi (blankTree id) = some root ∧ root.id = id ∧
      root.magnitude = mortonMagnitude (unitedMin tree lo) (unitedMax tree hi) ∧
      root.mortonMin = maskMin root.lod (unitedMin tree lo) ∧ Opened root tree.mortonMin := by
  let magnitude := mortonMagnitude (unitedMin tree lo) (unitedMax tree hi)
  let min := maskMin (magnitudeToLod magnitude) (unitedMin tree lo)
  let t : Tree := { blankTree id with
    magnitude := magnitude, mortonMin := min, mortonMax := maskMax (magnitudeToLod magnitude) min }
  have cell : maskMin (magnitudeToLod magnitude) tree.mortonMin = min := floorOf (floorAligned _ _) covers
  have floored : floor (magnitudeToLod magnitude + 1) min = min := floorOf (floorAligned _ _) hasSelf
  have made : treeInitializeNewParent tree lo hi (blankTree id) = some { t with levels := chainTo t.lod tree.mortonMin 0 } := by
    rw [← pushRootChain t tree.mortonMin rfl]
    exact if_neg (Nat.not_le.mpr small)
  refine ⟨_, made, rfl, rfl, rfl, ⟨cell.symm, ?_⟩, rfl, rfl⟩
  change maskMax (magnitudeToLod magnitude) min = maskMax (magnitudeToLod magnitude) tree.mortonMin
  unfold maskMax
  rw [floored, ← cell]
  rfl

theorem chainReparented (rooted : RootTree r treeId tree) {r' : Registry} {root : Tree} {rootId above : Nat}
    (found : r'.get rootId = some root) (opened : root.mortonMin = maskMin root.lod tree.mortonMin ∧
      root.mortonMax = maskMax root.lod tree.mortonMin) (small : root.magnitude < 12)
    (containsUnit : Has (root.lod + 1) root.mortonMin lo ∧ Has (root.lod + 1) root.mortonMin hi)
    (difference : root.magnitude = tree.magnitude + above + 1)
    (kept : ∀ id, id < r.data.length → r'.get id = r.get id)
    (chain : Chain r' tree.mortonMin treeId tree.magnitude above rootId) :
    Reparented r treeId tree lo hi r' rootId root := by
  have stop : root.mortonMax = root.mortonMin + (8 ^ (root.lod + 1) - 1) := by
    rw [opened.1, opened.2]
    rfl
  have aligned : Aligned (root.lod + 1) root.mortonMin := opened.1 ▸ floorAligned ..
  have steps : root.lod - tree.lod = 5 * (above + 1) := by
    unfold Tree.lod magnitudeToLod
    omega
  have le : tree.lod + 1 ≤ root.lod + 1 := by
    unfold Tree.lod magnitudeToLod
    omega
  have way : Corridor r' (rootOf rootId) (path tree.mortonMin root.lod (root.lod - tree.lod)) (rootOf treeId) := by
    rw [steps, Tree.lod, difference]
    exact chainCorridor chain
  have treeCell : floor (tree.lod + 1) tree.mortonMin = tree.mortonMin := floorOf rooted.aligned hasSelf
  have nested := @cellNested (tree.lod + 1) (root.lod + 1) root.mortonMin tree.mortonMin le aligned
    (opened.1 ▸ floorHas ..)
  rw [treeCell] at nested
  have cells : ∀ k, k ≤ root.lod - tree.lod →
      cellMin root.lod root.mortonMin (path tree.mortonMin root.lod k) = floor (root.lod + 1 - k) tree.mortonMin := by
    intro k within
    rw [opened.1]
    exact cellPath tree.mortonMin (by omega)
  refine ⟨found, ⟨small, aligned, stop⟩, ⟨nested.1, ?_⟩, ⟨containsUnit.1.1, ?_⟩, ⟨above, difference, chain⟩,
    corridorWalk way, fun octants q walked => corridorOnly way walked, cells, kept, fun octants q walked => ⟨?_, ?_⟩⟩
  · have positive := powPositive (tree.lod + 1)
    rw [rooted.stop, stop]
    omega
  · have inside := containsUnit.2.2
    rw [stop]
    omega
  · rw [walkAppend, corridorWalk way]
    exact walkKept kept walked
  · rw [cellAppend, cells _ (Nat.le_refl _), pathLength]
    rw [show root.lod - (root.lod - tree.lod) = tree.lod by omega,
      show root.lod + 1 - (root.lod - tree.lod) = tree.lod + 1 by omega, treeCell]

theorem reparentedWithin (rooted : RootTree r treeId tree) (order : lo ≤ hi)
    (outside : lo < tree.mortonMin ∨ tree.mortonMax < hi) :
    (∃ r' rootId root, reparentTree r treeId lo hi = some (r', rootId) ∧ Reparented r treeId tree lo hi r' rootId root) ↔
      lo / 8 ^ 60 = tree.mortonMin / 8 ^ 60 ∧ hi / 8 ^ 60 = tree.mortonMin / 8 ^ 60 := by
  obtain ⟨belowTree, belowUnit, aboveTree, aboveUnit⟩ := unitedBounds tree lo hi
  constructor
  · rintro ⟨r', rootId, root, ran, _⟩
    have small : mortonMagnitude (unitedMin tree lo) (unitedMax tree hi) < 12 := by
      refine Nat.not_le.mp fun large => ?_
      have none_ : treeInitializeNewParent tree lo hi (treeCacheAddTree r).2 = none := if_pos large
      unfold reparentTree at ran
      rw [rooted.found] at ran
      dsimp only at ran
      rw [none_] at ran
      cases ran
    have same := magnitudeLtIff.mp small
    have atTree := betweenSame belowTree ((treeOrder rooted).trans aboveTree) same
    exact ⟨(betweenSame belowUnit (order.trans aboveUnit) same).trans atTree.symm,
      (betweenSame (belowUnit.trans order) aboveUnit same).trans atTree.symm⟩
  · rintro ⟨sameLo, sameHi⟩
    obtain ⟨small, more, covers⟩ := unitedCell rooted outside sameLo sameHi
    obtain ⟨root, made, id, magnitude, min, opened⟩ := @newParentOpened tree lo hi r.currentId small
      (covers _ belowTree ((treeOrder rooted).trans aboveTree))
    obtain ⟨above, difference⟩ := Nat.exists_eq_add_of_lt (magnitude ▸ more)
    let added := (treeCacheAddTree r).1
    have addedLength : added.data.length = r.data.length + 1 := addLength r
    have numbered := rooted.numbered
    have insideTree := getInside rooted.found
    have gets : ∀ other, (added.set root.id root).get other = if other = root.id then some root else added.get other :=
      fun other => getSet (by omega) root other
    have old : ∀ other, other < r.data.length → (added.set root.id root).get other = r.get other := by
      intro other within
      rw [gets, if_neg (by omega)]
      exact getAdd within
    have foundRoot : (added.set root.id root).get root.id = some root := by rw [gets, if_pos rfl]
    have addedSet : (added.set root.id root).data.length = r.data.length + 1 := (List.length_set ..).trans addedLength
    obtain ⟨r', ran, kept, t, sub, foundLink, rfl, chain⟩ := @insertChain 256 above (by omega) (added.set root.id root)
      root.id treeId root tree (by
        change r.currentId + 1 = (added.set root.id root).data.length
        omega) foundRoot ((old treeId insideTree).trans rooted.found) (by omega) opened difference
    refine ⟨r', root.id, linkTree root tree.mortonMin sub, ?_, chainReparented rooted foundLink opened.range
      (magnitude ▸ small) ?_ difference (fun other within => ?_) chain⟩
    · unfold reparentTree
      rw [rooted.found]
      dsimp only
      rw [show (treeCacheAddTree r).2 = blankTree r.currentId from rfl, made]
      dsimp only
      rw [ran]
      rfl
    · change Has (root.lod + 1) root.mortonMin lo ∧ Has (root.lod + 1) root.mortonMin hi
      rw [min, Tree.lod, magnitude]
      exact ⟨covers lo belowUnit (order.trans aboveUnit), covers hi (belowUnit.trans order) aboveUnit⟩
    · rw [kept other (by omega) (by omega)]
      exact old other within

end

-- A root of magnitude zero at the origin, with one leaf.
def smallRoot : Tree := { blankTree 0 with
  mortonMax := 8 ^ 5 - 1
  levels := Function.update (fun _ => blankLevel) 0 ⟨[0], [0], [0], [empty]⟩ }

def smallRegistry : Registry := ⟨[some smallRoot], 1⟩

theorem smallRooted : RootTree smallRegistry 0 smallRoot where
  found := rfl
  numbered := rfl
  aligned := Nat.dvd_zero _
  stop := rfl
  coded := by decide +kernel

theorem severalReparented : ∃ r' rootId root, reparentTree smallRegistry 0 (8 ^ 22) (8 ^ 22 + 5) = some (r', rootId) ∧
    Reparented smallRegistry 0 smallRoot (8 ^ 22) (8 ^ 22 + 5) r' rootId root :=
  (reparentedWithin smallRooted (by decide +kernel) (by decide +kernel)).mpr (by decide +kernel)

theorem topDigitsLost : ¬∀ r treeId tree lo hi, RootTree r treeId tree → lo ≤ hi → hi < 8 ^ 64 →
    lo < tree.mortonMin ∨ tree.mortonMax < hi → ∃ r' rootId root, reparentTree r treeId lo hi = some (r', rootId) ∧
      Reparented r treeId tree lo hi r' rootId root := by
  intro all
  have lost : reparentTree smallRegistry 0 (2 ^ 191) (2 ^ 191) = none := by decide +kernel
  obtain ⟨r', rootId, root, ran, _⟩ := all smallRegistry 0 smallRoot (2 ^ 191) (2 ^ 191) smallRooted (Nat.le_refl _)
    (by decide +kernel) (Or.inr (by decide +kernel))
  rw [lost] at ran
  cases ran

end Dewfall.TreeReparent
