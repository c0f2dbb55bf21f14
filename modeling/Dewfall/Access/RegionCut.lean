import Dewfall.Access.RegionWalk
import Dewfall.General.Sequence

/-! What a region walk selects: a cut of the resident octree down to the depth cap. The budget bounds the
descent and not the selection. That the tight bounds of a node's codes hold its points is not claimed. -/
namespace Dewfall.RegionCut
open General General.Descent General.Sequence Morton TreeArrays RegionWalk

variable {R : Type} [LinearOrder R]

/-! ## The resident octree -/

def childIndex (level : Fin 5) (tree : Tree) (skip : Int) (i : Nat) : Option Int :=
  (at_ (tree.levels level).nodes skip).bind fun mask =>
    if mask.getLsbD i then (at_ (tree.levels level).skips skip).map fun first => first.toInt + ordinal mask i
    else none

-- One proof for the numerals of the five levels.
local instance levelsNonzero : NeZero 5 := ⟨by decide⟩

def subTreeAt (tree : Tree) (skip : Int) (i : Nat) : Option (BitVec 32) :=
  (childIndex 4 tree skip i).bind (at_ tree.subTrees)

variable (registry : TreeRegistry)

def treeAt (id : BitVec 32) : Option Tree :=
  if treeResident registry id then (registry.data[id.toNat]?).join else none

def childAt (level : Fin 5) (tree : Tree) (skip : Int) (i : Nat) : Option (Tree × Int) :=
  if level = 4 then ((subTreeAt tree skip i).bind (treeAt registry)).map fun sub => (sub, 0)
  else (childIndex level tree skip i).map fun child => (tree, child)

-- The octants that lead from the root to a node, through resident trees only.
inductive Leads : List Nat → Tree → Int → Prop where
  | root {tree} (here : treeAt registry registry.root = some tree) : Leads [] tree 0
  | down {path tree skip i tree' skip'} (above : Leads path tree skip)
      (child : childAt registry (levelOf path.length) tree skip i = some (tree', skip')) :
      Leads (path ++ [i]) tree' skip'

def maskAt (depth : Nat) (tree : Tree) (skip : Int) : Option (BitVec 8) :=
  at_ (tree.levels (levelOf depth)).nodes skip

def collectionAt (depth : Nat) (tree : Tree) (skip : Int) : Option PointsCollection :=
  at_ (tree.levels (levelOf depth)).data skip

def below (tree : Tree) (level : Fin 5) : Nat :=
  if inside : level.val < 4 then (tree.levels ⟨level.val + 1, by omega⟩).nodes.length else tree.subTrees.length

-- The arrays of a level have one length, and every child a mask names is in the next.
structure LaidTree (tree : Tree) : Prop where
  root : 0 < (tree.levels 0).nodes.length
  skips : ∀ level, (tree.levels level).skips.length = (tree.levels level).nodes.length
  nodeIds : ∀ level, (tree.levels level).nodeIds.length = (tree.levels level).nodes.length
  data : ∀ level, (tree.levels level).data.length = (tree.levels level).nodes.length
  units : ∀ level, ∀ collection ∈ (tree.levels level).data, ∀ subset ∈ collection.data,
    (tree.storageMap.attributeId subset.inputId).isSome
  children : ∀ (level : Fin 5) (skip : Nat) (mask : BitVec 8) (first : BitVec 16),
    (tree.levels level).nodes[skip]? = some mask → (tree.levels level).skips[skip]? = some first → mask ≠ 0 →
    0 ≤ first.toInt ∧ first.toInt + ordinal mask 8 ≤ below tree level

structure Laid : Prop where
  trees : ∀ tree, some tree ∈ registry.data → LaidTree tree
  resident : ∀ id, treeResident registry id = true → id.toNat < registry.data.length

-- Every interior node has a sampled unit, and the root holds something.
structure Sampled : Prop where
  interior : ∀ tree, some tree ∈ registry.data → ∀ (level : Fin 5) (skip : Nat) mask collection,
    (tree.levels level).nodes[skip]? = some mask → (tree.levels level).data[skip]? = some collection → mask ≠ 0 →
    ∃ subset ∈ collection.data, inputDataIdIsLeaf subset.inputId = false
  root : ∀ tree, treeAt registry registry.root = some tree →
    ∃ collection, (tree.levels 0).data[0]? = some collection ∧ collection.data ≠ []

structure Inside (depth : Nat) (tree : Tree) (skip : Int) : Prop where
  held : some tree ∈ registry.data
  low : 0 ≤ skip
  high : skip < (tree.levels (levelOf depth)).nodes.length

variable {registry} {depth : Nat} {tree tree' : Tree} {skip skip' : Int} {i : Nat}

theorem atSome {α : Type} {array : List α} (low : 0 ≤ skip) (high : skip < array.length) :
    ∃ (n : Nat) (a : α), skip = n ∧ array[n]? = some a ∧ at_ array skip = some a := by
  have inside : skip.toNat < array.length := by omega
  refine ⟨skip.toNat, array[skip.toNat], by omega, List.getElem?_eq_getElem inside, ?_⟩
  rw [at_, if_pos low, List.getElem?_eq_getElem inside]

theorem atMem {α : Type} {array : List α} {a : α} (here : at_ array skip = some a) : a ∈ array := by
  rw [at_] at here
  split at here
  · exact List.mem_of_getElem? here
  · cases here

theorem atNat {α : Type} {array : List α} {a : α} (here : at_ array skip = some a) :
    0 ≤ skip ∧ array[skip.toNat]? = some a := by
  rw [at_] at here
  split at here
  · exact ⟨‹_›, here⟩
  · cases here

theorem maskInside (inside : Inside registry depth tree skip) : ∃ mask, maskAt depth tree skip = some mask := by
  obtain ⟨_, mask, _, _, here⟩ := atSome inside.low inside.high
  exact ⟨mask, here⟩

theorem treeAtHeld {id : BitVec 32} (here : treeAt registry id = some tree) : some tree ∈ registry.data := by
  rw [treeAt] at here
  split at here
  · exact List.mem_of_getElem? (Option.join_eq_some_iff.mp here)
  · cases here

theorem rootInside (laid : Laid registry) (held : some tree ∈ registry.data) (level : depth % 5 = 0) :
    Inside registry depth tree 0 := by
  have first : levelOf depth = 0 := Fin.ext level
  exact ⟨held, Int.le_refl 0, by rw [first]; exact_mod_cast (laid.trees tree held).root⟩

theorem indexOctant {level : Fin 5} {child : Int} (named : childIndex level tree skip i = some child) : i < 8 := by
  rw [childIndex, Option.bind_eq_some_iff] at named
  obtain ⟨mask, _, named⟩ := named
  split at named
  · rename_i set
    by_contra far
    rw [BitVec.getLsbD_of_ge _ _ (by omega)] at set
    cases set
  · cases named

theorem subTreeOctant {id : BitVec 32} (sub : subTreeAt tree skip i = some id) : i < 8 := by
  obtain ⟨_, named, _⟩ := Option.bind_eq_some_iff.mp sub
  exact indexOctant named

theorem childOctant {level : Fin 5} (child : childAt registry level tree skip i = some (tree', skip')) : i < 8 := by
  rw [childAt] at child
  split at child
  · obtain ⟨_, found, _⟩ := Option.map_eq_some_iff.mp child
    obtain ⟨_, sub, _⟩ := Option.bind_eq_some_iff.mp found
    exact subTreeOctant sub
  · obtain ⟨_, named, _⟩ := Option.map_eq_some_iff.mp child
    exact indexOctant named

-- A bit of a mask names a child below the end of the next level.
theorem indexInside (laid : Laid registry) (inside : Inside registry depth tree skip) {child : Int}
    (named : childIndex (levelOf depth) tree skip i = some child) :
    0 ≤ child ∧ child < below tree (levelOf depth) := by
  have octant := indexOctant named
  rw [childIndex, Option.bind_eq_some_iff] at named
  obtain ⟨mask, here, named⟩ := named
  split at named
  · rename_i set
    obtain ⟨first, skips, rfl⟩ := Option.map_eq_some_iff.mp named
    have nonzero : mask ≠ 0 := by
      rintro rfl
      simp at set
    have bounds := (laid.trees tree inside.held).children _ _ mask first (atNat here).2 (atNat skips).2 nonzero
    have less := ordinalLt octant set
    omega
  · cases named

theorem childInside (laid : Laid registry) (inside : Inside registry depth tree skip)
    (child : childAt registry (levelOf depth) tree skip i = some (tree', skip')) :
    Inside registry (depth + 1) tree' skip' := by
  rw [childAt] at child
  split at child
  · rename_i last
    obtain ⟨sub, found, same⟩ := Option.map_eq_some_iff.mp child
    obtain ⟨id, _, here⟩ := Option.bind_eq_some_iff.mp found
    cases same
    have level : depth % 5 = 4 := congrArg Fin.val last
    exact rootInside laid (treeAtHeld here) (by omega)
  · rename_i last
    obtain ⟨child, named, same⟩ := Option.map_eq_some_iff.mp child
    cases same
    have bounds := indexInside laid inside named
    have level : depth % 5 ≠ 4 := fun same => last (Fin.ext same)
    have next : levelOf (depth + 1) = ⟨(levelOf depth).val + 1, by simp only [levelOf]; omega⟩ :=
      Fin.ext (by simp only [levelOf]; omega)
    rw [below, dif_pos (show (levelOf depth).val < 4 by simp only [levelOf]; omega)] at bounds
    exact ⟨inside.held, bounds.1, by rw [next]; exact bounds.2⟩

theorem leadsInside {path : List Nat} (laid : Laid registry) (leads : Leads registry path tree skip) :
    Inside registry path.length tree skip := by
  induction leads with
  | root here => exact rootInside laid (treeAtHeld here) rfl
  | down _ child ih =>
    rw [List.length_append]
    exact childInside laid ih child

/-! ## One node -/

variable (arithmetic : Arithmetic R) (registry) (query : RegionQuery R)

def branch (depth : Nat) (p : PendingNode R) (i : Nat) : Option (Nat × PendingNode R) :=
  let cell := aabbChild arithmetic p.cell i
  if meets query cell then
    (childAt registry (levelOf depth) p.tree p.skip i).map fun child =>
      (i, ⟨child.1, child.2, cell, p.fullyInside || aabbContains query.box cell⟩)
  else none

-- A sub-tree that would have to be loaded to enter an octant.
def missing (depth : Nat) (p : PendingNode R) (i : Nat) : Option (BitVec 32) :=
  if meets query (aabbChild arithmetic p.cell i) = true ∧ levelOf depth = 4 then
    (subTreeAt p.tree p.skip i).filter fun id => !treeResident registry id
  else none

def branches (depth : Nat) (p : PendingNode R) : List (Nat × PendingNode R) :=
  (List.range 8).filterMap (branch registry arithmetic query depth p)

def subTreesOf (depth : Nat) (p : PendingNode R) : List (BitVec 32) :=
  (List.range 8).filterMap (missing registry arithmetic query depth p)

def unitsAt (depth : Nat) (p : PendingNode R) : List (RegionNode R) :=
  (emitNode arithmetic registry query (levelOf depth) p).getD []

def walkOf : Walk (PendingNode R) where
  branches := branches registry arithmetic query
  opens total depth p := (maskAt depth p.tree p.skip).any (descends query total (levelOf depth) p.tree)
  weight depth p := pointsIn (unitsAt registry arithmetic query depth p)

variable {arithmetic registry query} {p : PendingNode R}

theorem indexSome {mask : BitVec 8} {first : BitVec 16} (here : maskAt depth tree skip = some mask)
    (set : mask.getLsbD i = true) (skips : at_ (tree.levels (levelOf depth)).skips skip = some first) :
    childIndex (levelOf depth) tree skip i = some (first.toInt + ordinal mask i) := by
  rw [maskAt] at here
  rw [childIndex, here, Option.bind_some, if_pos set, skips]
  rfl

theorem indexNone {mask : BitVec 8} (here : maskAt depth tree skip = some mask) (clear : mask.getLsbD i = false) :
    childIndex (levelOf depth) tree skip i = none := by
  rw [maskAt] at here
  rw [childIndex, here, Option.bind_some, clear]
  rfl

theorem childNone (none_ : childIndex (levelOf depth) tree skip i = none) :
    childAt registry (levelOf depth) tree skip i = none := by
  rw [childAt]
  split
  · rename_i last
    rw [last] at none_
    rw [subTreeAt, none_]
    rfl
  · rw [none_]
    rfl

theorem missingNone (none_ : childIndex (levelOf depth) p.tree p.skip i = none) :
    missing registry arithmetic query depth p i = none := by
  rw [missing]
  split
  · rename_i both
    rw [both.2] at none_
    rw [subTreeAt, none_]
    rfl
  · rfl

theorem visitOctantSpec (laid : Laid registry) (inside : Inside registry depth p.tree p.skip) {mask : BitVec 8}
    (here : maskAt depth p.tree p.skip = some mask) (next : List (PendingNode R)) (treesToLoad : List (BitVec 32)) :
    visitOctant arithmetic registry query (levelOf depth) p mask ⟨ordinal mask i, next, treesToLoad⟩ i =
      some ⟨ordinal mask (i + 1), next ++ ((branch registry arithmetic query depth p i).map Prod.snd).toList,
        treesToLoad ++ (missing registry arithmetic query depth p i).toList⟩ := by
  rw [visitOctant, ordinalSucc]
  cases set : mask.getLsbD i with
  | false =>
    have none_ := indexNone here set
    simp [branch, childNone none_, missingNone none_]
  | true =>
    cases met : meets query (aabbChild arithmetic p.cell i) with
    | false => simp [branch, missing, met]
    | true =>
      have lengths := (laid.trees _ inside.held).skips (levelOf depth)
      have high := inside.high
      obtain ⟨_, first, _, _, skips⟩ := atSome inside.low (lengths ▸ high)
      have index := indexSome here set skips
      have bounds := indexInside laid inside index
      simp only [met, Bool.true_eq_false, if_false, skips, Option.bind_eq_bind, Option.bind_some, if_true]
      split
      · rename_i last
        rw [last] at index
        have level : ¬(levelOf depth).val < 4 := by rw [last]; decide
        rw [below, dif_neg level] at bounds
        obtain ⟨_, id, _, _, named⟩ := atSome bounds.1 bounds.2
        have sub : subTreeAt p.tree p.skip i = some id := by rw [subTreeAt, index, Option.bind_some, named]
        rw [named, Option.bind_some]
        simp only [branch, missing, met, last, childAt, sub, treeAt, if_true, Option.bind_some, and_self]
        cases resident : treeResident registry id with
        | false => simp [resident, Option.filter_some]
        | true =>
          have known := laid.resident id resident
          rw [List.getElem?_eq_getElem known]
          cases held : registry.data[id.toNat] with
          | none => simp [resident]
          | some sub => simp [resident]
      · rename_i last
        simp [branch, missing, met, last, childAt, index]

theorem lastMapped {β : Type} (f : Nat → Option β) (n : Nat) :
    (List.range (n + 1)).filterMap f = (List.range n).filterMap f ++ (f n).toList := by
  rw [List.range_succ, List.filterMap_append]
  cases here : f n with
  | none => simp [here]
  | some b => simp [here]

theorem visitOctantsSpec (laid : Laid registry) (inside : Inside registry depth p.tree p.skip) {mask : BitVec 8}
    (here : maskAt depth p.tree p.skip = some mask) (next : List (PendingNode R)) (treesToLoad : List (BitVec 32)) (n : Nat) :
    (List.range n).foldlM (visitOctant arithmetic registry query (levelOf depth) p mask) ⟨0, next, treesToLoad⟩ =
      some ⟨ordinal mask n, next ++ ((List.range n).filterMap (branch registry arithmetic query depth p)).map Prod.snd,
        treesToLoad ++ (List.range n).filterMap (missing registry arithmetic query depth p)⟩ := by
  induction n with
  | zero => simp [ordinal]
  | succ n ih =>
    rw [lastMapped, lastMapped, List.range_succ, List.foldlM_append, ih]
    simp only [Option.bind_eq_bind, Option.bind_some, List.foldlM_cons, List.foldlM_nil, visitOctantSpec laid inside here]
    rw [List.map_append, ← Option.toList_map, List.append_assoc, List.append_assoc]
    rfl

/-! ## One level -/

-- A selected entry for one unit of a node.
structure Entry (depth : Nat) (p : PendingNode R) (mask : BitVec 8) (subset : PointsSubset) (n : RegionNode R) : Prop where
  tree : n.treeId = p.tree.id
  level : n.level = levelOf depth
  index : at_ (p.tree.levels (levelOf depth)).nodeIds p.skip = some n.index
  unit : n.inputId = subset.inputId ∧ n.offsetInSubset = subset.offset ∧ n.pointCount = subset.count
  cell : n.cell = p.cell
  kind : n.childMask = mask ∧ n.isLod = !inputDataIdIsLeaf subset.inputId

def taken (query : RegionQuery R) (mask : BitVec 8) (subset : PointsSubset) : Prop :=
  if query.lodMode = .full then inputDataIdIsLeaf subset.inputId = true
  else mask = 0 ∨ inputDataIdIsLeaf subset.inputId = false

theorem emitSubsetSpec (laid : Laid registry) (inside : Inside registry depth p.tree p.skip) {mask : BitVec 8}
    {tight : Aabb R} {subset : PointsSubset} (known : (p.tree.storageMap.attributeId subset.inputId).isSome) :
    ∃ part, emitSubset query (levelOf depth) p mask tight subset = some part ∧
      (∀ n ∈ part, taken query mask subset ∧ Entry depth p mask subset n) ∧ (taken query mask subset → part ≠ []) := by
  have high := inside.high
  obtain ⟨_, index, _, _, named⟩ := atSome inside.low ((laid.trees _ inside.held).nodeIds (levelOf depth) ▸ high)
  obtain ⟨attributesId, config⟩ := Option.isSome_iff_exists.mp known
  by_cases source : query.lodMode = .full ∧ inputDataIdIsLeaf subset.inputId = false
  · refine ⟨[], if_pos source, by simp, fun takes => ?_⟩
    rw [taken, if_pos source.1, source.2] at takes
    cases takes
  by_cases sampled : query.lodMode ≠ .full ∧ mask ≠ 0 ∧ inputDataIdIsLeaf subset.inputId = true
  · refine ⟨[], (if_neg source).trans (if_pos sampled), by simp, fun takes => ?_⟩
    rw [taken, if_neg sampled.1, sampled.2.2] at takes
    rcases takes with zero | lod
    · exact absurd zero sampled.2.1
    · cases lod
  refine ⟨_, (if_neg source).trans ((if_neg sampled).trans (by rw [named, config]; rfl)), ?_, fun _ => by simp⟩
  intro n mem
  cases List.mem_singleton.mp mem
  refine ⟨?_, rfl, rfl, named, ⟨rfl, rfl, rfl⟩, rfl, ⟨rfl, rfl⟩⟩
  rw [taken]
  split
  · rename_i full
    exact Bool.of_not_eq_false fun lod => source ⟨full, lod⟩
  · rename_i partial_
    by_cases zero : mask = 0
    · exact .inl zero
    · exact .inr (Bool.eq_false_iff.mpr fun leaf => sampled ⟨partial_, zero, leaf⟩)

-- What a node at which the walk stops has in the result.
structure Shown (registry : TreeRegistry) (arithmetic : Arithmetic R) (query : RegionQuery R) (depth : Nat)
    (p : PendingNode R) (mask : BitVec 8) (collection : PointsCollection) : Prop where
  masked : maskAt depth p.tree p.skip = some mask
  held : collectionAt depth p.tree p.skip = some collection
  emits : emitNode arithmetic registry query (levelOf depth) p = some (unitsAt registry arithmetic query depth p)
  each : meets query (cellFromMorton arithmetic registry.treeConfig collection.min collection.max) = true →
    ∀ subset ∈ collection.data, taken query mask subset →
      ∃ n ∈ unitsAt registry arithmetic query depth p, Entry depth p mask subset n
  only : ∀ n ∈ unitsAt registry arithmetic query depth p,
    ∃ subset ∈ collection.data, taken query mask subset ∧ Entry depth p mask subset n

theorem emitSpec (laid : Laid registry) (inside : Inside registry depth p.tree p.skip) :
    ∃ mask collection, Shown registry arithmetic query depth p mask collection := by
  obtain ⟨mask, masked⟩ := maskInside inside
  have high := inside.high
  have tree := laid.trees _ inside.held
  obtain ⟨_, collection, _, _, here⟩ := atSome inside.low (tree.data (levelOf depth) ▸ high)
  have parts : ∀ subset ∈ collection.data, ∃ part, emitSubset query (levelOf depth) p mask
      (cellFromMorton arithmetic registry.treeConfig collection.min collection.max) subset = some part ∧
      (∀ n ∈ part, taken query mask subset ∧ Entry depth p mask subset n) ∧ (taken query mask subset → part ≠ []) :=
    fun subset mem => emitSubsetSpec laid inside (tree.units _ collection (atMem here) subset mem)
  obtain ⟨all, run⟩ := mapMTotal fun subset mem => (parts subset mem).imp fun _ both => both.1
  have runs := mapMSome run
  have units : emitNode arithmetic registry query (levelOf depth) p =
      some (if meets query (cellFromMorton arithmetic registry.treeConfig collection.min collection.max)
        then all.flatten else []) := by
    rw [maskAt] at masked
    rw [emitNode, here]
    simp only [Option.bind_eq_bind, Option.bind_some, masked, run]
    split
    · rename_i empty
      rw [empty] at runs
      cases runs
      simp
    · split <;> rfl
  refine ⟨mask, collection, masked, here, by rw [unitsAt, units]; rfl, ?_, ?_⟩
  · intro met subset mem takes
    obtain ⟨part, inside_, issued⟩ := forall₂Mem runs mem
    obtain ⟨part', issued', entries, nonempty⟩ := parts subset mem
    cases issued.symm.trans issued'
    obtain ⟨n, first⟩ := List.exists_mem_of_ne_nil _ (nonempty takes)
    refine ⟨n, ?_, (entries n first).2⟩
    rw [unitsAt, units, if_pos met]
    exact List.mem_flatten.mpr ⟨part, inside_, first⟩
  · intro n mem
    rw [unitsAt, units, Option.getD_some] at mem
    split at mem
    · obtain ⟨part, inside_, first⟩ := List.mem_flatten.mp mem
      obtain ⟨subset, held, issued⟩ := forall₂Mem runs.flip inside_
      obtain ⟨part', issued', entries, _⟩ := parts subset held
      cases issued.symm.trans issued'
      exact ⟨subset, held, entries n first⟩
    · cases mem

theorem emitSome (laid : Laid registry) (inside : Inside registry depth p.tree p.skip) :
    emitNode arithmetic registry query (levelOf depth) p = some (unitsAt registry arithmetic query depth p) := by
  have shown : ∃ mask collection, Shown registry arithmetic query depth p mask collection := emitSpec laid inside
  obtain ⟨_, _, shown⟩ := shown
  exact shown.emits

-- What the walk of some spots adds to a result.
structure Adds (registry : TreeRegistry) (arithmetic : Arithmetic R) (query : RegionQuery R) (out : RegionResult R)
    (trail : Trail (PendingNode R)) (out' : RegionResult R) : Prop where
  nodes : out'.nodes = out.nodes ++ trail.stops.flatMap fun x => unitsAt registry arithmetic query x.1.length x.2
  total : out'.totalPoints = out.totalPoints + (walkOf registry arithmetic query).sum trail.stops
  loads : out'.treesToLoad = out.treesToLoad ++ trail.opened.flatMap fun x => subTreesOf registry arithmetic query x.1.length x.2

def AllInside (registry : TreeRegistry) (depth : Nat) (current : List (Spot (PendingNode R))) : Prop :=
  ∀ x ∈ current, x.1.length = depth ∧ Inside registry depth x.2.tree x.2.skip

theorem visitLevelSpec (laid : Laid registry) {current : List (Spot (PendingNode R))}
    (inside : AllInside registry depth current) (out : RegionResult R) (next : List (PendingNode R)) :
    ∃ out', (current.map Prod.snd).foldlM (visitPending arithmetic registry query (levelOf depth)) (out, next) =
        some (out', next ++ (((sweep (walkOf registry arithmetic query) out.totalPoints current).opened.flatMap
          (walkOf registry arithmetic query).extend).map Prod.snd)) ∧
      Adds registry arithmetic query out (sweep (walkOf registry arithmetic query) out.totalPoints current) out' := by
  induction current generalizing out next with
  | nil => exact ⟨out, by simp [sweep], by simp [sweep], by simp [sweep, Walk.sum], by simp [sweep]⟩
  | cons x rest ih =>
    obtain ⟨length, here⟩ := inside x List.mem_cons_self
    obtain ⟨mask, masked⟩ := maskInside here
    have opens : (walkOf registry arithmetic query).opens out.totalPoints x.1.length x.2 =
        descends query out.totalPoints (levelOf depth) x.2.tree mask := by
      simp [walkOf, length, masked]
    have later := fun y mem => inside y (List.mem_cons_of_mem x mem)
    rw [maskAt] at masked
    rw [List.map_cons, List.foldlM_cons, visitPending, masked, sweep, opens]
    simp only [Option.bind_eq_bind, Option.bind_some]
    cases descends query out.totalPoints (levelOf depth) x.2.tree mask with
    | true =>
      obtain ⟨out', walked, adds⟩ := ih later
        ⟨out.nodes, out.treesToLoad ++ subTreesOf registry arithmetic query depth x.2, out.totalPoints⟩
        (next ++ (branches registry arithmetic query depth x.2).map Prod.snd)
      have extends_ : ((walkOf registry arithmetic query).extend x).map Prod.snd =
          (branches registry arithmetic query depth x.2).map Prod.snd := by
        simp [Walk.extend, walkOf, length]
      refine ⟨out', ?_, ?_⟩
      · rw [if_pos rfl, visitOctantsSpec laid here masked]
        simp only [Option.bind_some, if_true, List.flatMap_cons, List.map_append, extends_]
        rw [← List.append_assoc]
        exact walked
      · refine ⟨adds.nodes, adds.total, ?_⟩
        rw [adds.loads]
        simp [length]
    | false =>
      rw [if_neg Bool.false_ne_true, emitSome laid here]
      simp only [Option.bind_some, if_neg Bool.false_ne_true]
      obtain ⟨out', walked, adds⟩ := ih later (emitted out (unitsAt registry arithmetic query depth x.2)) next
      have weight : (walkOf registry arithmetic query).weigh x = pointsIn (unitsAt registry arithmetic query depth x.2) := by
        simp [Walk.weigh, walkOf, length]
      rw [weight]
      refine ⟨out', walked, ?_, ?_, adds.loads⟩
      · rw [adds.nodes]
        simp [emitted, length]
      · rw [adds.total, sumCons, weight]
        simp only [emitted]
        omega

/-! ## Every level -/

theorem extendInside (laid : Laid registry) {current : List (Spot (PendingNode R))}
    (inside : AllInside registry depth current) {total : Nat} :
    AllInside registry (depth + 1) ((sweep (walkOf registry arithmetic query) total current).opened.flatMap
      (walkOf registry arithmetic query).extend) := by
  intro y mem
  obtain ⟨x, opened, extends_⟩ := List.mem_flatMap.mp mem
  obtain ⟨i, c, branched, rfl⟩ := extendMem.mp extends_
  obtain ⟨length, here⟩ := inside x (sweepOpened opened).1
  obtain ⟨j, _, found⟩ := List.mem_filterMap.mp branched
  rw [branch] at found
  split at found
  · obtain ⟨child, named, same⟩ := Option.map_eq_some_iff.mp found
    cases same
    rw [length] at named
    exact ⟨by simp [length], childInside laid here named⟩
  · cases found

theorem walkLevelsSpec (laid : Laid registry) {levels : Nat} {current : List (Spot (PendingNode R))}
    (inside : AllInside registry depth current) (out : RegionResult R) :
    ∃ out', walkLevels arithmetic registry query levels depth out (current.map Prod.snd) = some out' ∧
      Adds registry arithmetic query out (descend (walkOf registry arithmetic query) levels out.totalPoints current) out' := by
  induction levels generalizing depth current out with
  | zero => exact ⟨out, rfl, by simp [descend], by simp [descend, Walk.sum], by simp [descend]⟩
  | succ levels ih =>
    cases current with
    | nil => exact ⟨out, rfl, by simp [descendNil], by simp [descendNil, Walk.sum], by simp [descendNil]⟩
    | cons x rest =>
      obtain ⟨here, walked, adds⟩ := visitLevelSpec laid inside out []
      obtain ⟨out', below, adds'⟩ := ih (extendInside laid inside) here
      rw [List.nil_append] at walked
      rw [adds.total] at adds'
      refine ⟨out', ?_, ?_, ?_, ?_⟩
      · rw [List.map_cons] at walked ⊢
        rw [walkLevels, walked]
        · exact below
        · exact List.cons_ne_nil _ _
      · simp [adds'.nodes, adds.nodes, descend]
      · rw [adds'.total, adds.total, descend, sumAppend, Nat.add_assoc]
      · simp [adds'.loads, adds.loads, descend]

/-! ## Cells -/

variable (arithmetic)

def cellAt (root : Aabb R) (path : List Nat) : Aabb R := path.foldl (aabbChild arithmetic) root
def Ordered (cell : Aabb R) : Prop := ∀ i, cell.min i ≤ cell.max i

variable {arithmetic} {cell : Aabb R}

theorem childOrdered (ordered : Ordered cell) : Ordered (aabbChild arithmetic cell i) := by
  intro k
  have mid := arithmetic.between _ _ (ordered k)
  simp only [aabbChild]
  split
  · exact mid.2
  · exact mid.1

theorem childMeets (ordered : Ordered cell) (met : meets query (aabbChild arithmetic cell i) = true) :
    meets query cell = true := by
  simp only [meets, Bool.or_eq_true, aabbOverlaps, decide_eq_true_eq] at met ⊢
  refine met.imp_right fun overlaps k => ?_
  have mid := arithmetic.between _ _ (ordered k)
  have here := overlaps k
  simp only [aabbChild, not_or, not_lt] at here ⊢
  split at here
  · exact ⟨here.1, mid.1.trans here.2⟩
  · exact ⟨here.1.trans mid.2, here.2⟩

theorem cellAtSnoc {path : List Nat} :
    cellAt arithmetic cell (path ++ [i]) = aabbChild arithmetic (cellAt arithmetic cell path) i := by
  simp [cellAt]

theorem cellAtOrdered {path : List Nat} (ordered : Ordered cell) : Ordered (cellAt arithmetic cell path) := by
  induction path using List.reverseRecOn with
  | nil => exact ordered
  | append_singleton path i ih =>
    rw [cellAtSnoc]
    exact childOrdered ih

/-! ## The cut -/

variable (registry arithmetic query)

structure Framed : Prop where
  ordered : ∀ root, treeAt registry registry.root = some root → Ordered (rootCell arithmetic registry root)

def meetsAt (path : List Nat) : Prop :=
  ∀ root, treeAt registry registry.root = some root →
    meets query (cellAt arithmetic (rootCell arithmetic registry root) path) = true

-- The nodes at which the walk has stopped are a cut of what is resident.
structure Cut (out : RegionResult R) (stops : List (Spot (PendingNode R))) : Prop where
  root : registry.data ≠ [] → treeResident registry registry.root = false → registry.root ∈ out.treesToLoad
  places : ∀ x ∈ stops, Leads registry x.1 x.2.tree x.2.skip ∧ meetsAt registry arithmetic query x.1
  nodes : out.nodes = stops.flatMap fun x => unitsAt registry arithmetic query x.1.length x.2
  total : out.totalPoints = pointsIn out.nodes
  shown : ∀ x ∈ stops, ∃ mask collection, Shown registry arithmetic query x.1.length x.2 mask collection
  apart : stops.Pairwise fun x y => ¬x.1 <+: y.1 ∧ ¬y.1 <+: x.1
  one : ∀ path tree skip, Leads registry path tree skip → maskAt path.length tree skip = some 0 →
    path.length < maxDepth → meetsAt registry arithmetic query path → ∃! x, x ∈ stops ∧ x.1 <+: path
  -- A leaf that is not resident lies in a sub-tree that is asked for, or under a stop.
  loads : ∀ path tree skip i id, Leads registry path tree skip → path.length < maxDepth → path.length % 5 = 4 →
    subTreeAt tree skip i = some id → treeResident registry id = false →
    meetsAt registry arithmetic query (path ++ [i]) → id ∈ out.treesToLoad ∨ ∃ x ∈ stops, x.1 <+: path

-- The stops up to the one with which the total reaches the budget are leaves; the rest were pending then.
inductive Budgeted : List (Spot (PendingNode R)) → Prop where
  | none_ {stops} (zero : query.maxPoints = 0) (root : ∀ x ∈ stops, x.1 = []) : Budgeted stops
  | under {stops} (leaves : ∀ x ∈ stops, maskAt x.1.length x.2.tree x.2.skip = some 0)
      (below : (walkOf registry arithmetic query).sum stops < query.maxPoints) : Budgeted stops
  | reached {before x after} (leaves : ∀ y ∈ before ++ [x], maskAt y.1.length y.2.tree y.2.skip = some 0)
      (below : (walkOf registry arithmetic query).sum before < query.maxPoints)
      (reaches : query.maxPoints ≤ (walkOf registry arithmetic query).sum before + (walkOf registry arithmetic query).weigh x)
      (near : ∀ y ∈ after, y.1.length = x.1.length ∨ y.1.length = x.1.length + 1) : Budgeted (before ++ x :: after)

-- The units of a node at which the walk has stopped stand for it, where the bounds of its codes meet the box.
def Represented (out : RegionResult R) (stops : List (Spot (PendingNode R))) : Prop :=
  ∀ x ∈ stops, ∀ mask collection, Shown registry arithmetic query x.1.length x.2 mask collection →
    (mask = 0 → collection.data ≠ []) →
    meets query (cellFromMorton arithmetic registry.treeConfig collection.min collection.max) = true →
    ∃ n ∈ out.nodes, ∃ subset ∈ collection.data, (mask = 0 ∨ inputDataIdIsLeaf subset.inputId = false) ∧
      Entry x.1.length x.2 mask subset n

variable {registry arithmetic query}

theorem branchLabel {b : Nat × PendingNode R} (found : branch registry arithmetic query depth p i = some b) : b.1 = i := by
  rw [branch] at found
  split at found
  · obtain ⟨_, _, rfl⟩ := Option.map_eq_some_iff.mp found
    rfl
  · cases found

theorem branchesMem {c : PendingNode R} : (i, c) ∈ (walkOf registry arithmetic query).branches depth p ↔
    i < 8 ∧ branch registry arithmetic query depth p i = some (i, c) := by
  simp only [walkOf, branches, List.mem_filterMap, List.mem_range]
  constructor
  · rintro ⟨j, octant, found⟩
    have same : i = j := branchLabel found
    subst same
    exact ⟨octant, found⟩
  · rintro ⟨octant, found⟩
    exact ⟨i, octant, found⟩

theorem branchSome {c : PendingNode R} (found : branch registry arithmetic query depth p i = some (i, c)) :
    meets query c.cell = true ∧ c.cell = aabbChild arithmetic p.cell i ∧
      childAt registry (levelOf depth) p.tree p.skip i = some (c.tree, c.skip) := by
  rw [branch] at found
  split at found
  · rename_i met
    obtain ⟨child, here, same⟩ := Option.map_eq_some_iff.mp found
    cases same
    exact ⟨met, rfl, here⟩
  · cases found

theorem labelsFilter (octants : List Nat) : (octants.filterMap (branch registry arithmetic query depth p)).map Prod.fst =
    octants.filter fun i => (branch registry arithmetic query depth p i).isSome := by
  induction octants with
  | nil => rfl
  | cons i rest ih =>
    cases found : branch registry arithmetic query depth p i with
    | none => simp [found, ih]
    | some b => simp [found, ih, branchLabel found]

theorem labelled : Labelled (walkOf registry arithmetic query) := by
  intro depth p
  simp only [walkOf, branches, labelsFilter]
  exact List.nodup_range.filter _

-- Whatever the walk reaches is a node of the resident octree, with the cell its octants name.
theorem belowLeads {p n : PendingNode R} {path before : List Nat} {root : Aabb R}
    (below : Below (walkOf registry arithmetic query) before.length p path n) (leads : Leads registry before p.tree p.skip)
    (cell : p.cell = cellAt arithmetic root before) (met : meets query p.cell = true) :
    Leads registry (before ++ path) n.tree n.skip ∧ n.cell = cellAt arithmetic root (before ++ path) ∧
      meets query n.cell = true := by
  generalize start : before.length = depth at below
  induction below generalizing before with
  | self => simpa using ⟨leads, cell, met⟩
  | @down depth p i c path n first rest ih =>
    obtain ⟨met', cell', child⟩ := branchSome (branchesMem.mp first).2
    subst start
    have cellNext : c.cell = cellAt arithmetic root (before ++ [i]) := by rw [cell', cellAtSnoc, cell]
    have next := ih (.down leads child) cellNext met' (by simp)
    simpa using next

-- A node of the resident octree whose cell meets the query is reached unless the walk stops above it.
theorem leadsBelow {path : List Nat} {tree root : Tree} {skip : Int} (framed : Framed registry arithmetic)
    (leads : Leads registry path tree skip) (rooted : treeAt registry registry.root = some root)
    (met : meets query (cellAt arithmetic (rootCell arithmetic registry root) path) = true) :
    ∃ n, Below (walkOf registry arithmetic query) 0 (rootNode arithmetic registry query root) path n ∧ n.tree = tree ∧
      n.skip = skip ∧ n.cell = cellAt arithmetic (rootCell arithmetic registry root) path := by
  induction leads with
  | root here =>
    cases here.symm.trans rooted
    exact ⟨_, .self _ _, rfl, rfl, rfl⟩
  | @down path tree skip i tree' skip' _ child ih =>
    rw [cellAtSnoc] at met
    obtain ⟨n, below, rfl, rfl, cell⟩ := ih (childMeets (cellAtOrdered (framed.ordered root rooted)) met)
    have octant := childOctant child
    have found : branch registry arithmetic query path.length n i = some (i, ⟨tree', skip', aabbChild arithmetic n.cell i,
        n.fullyInside || aabbContains query.box (aabbChild arithmetic n.cell i)⟩) := by
      rw [branch, cell, if_pos met, child]
      rfl
    exact ⟨_, belowSnoc below (branchesMem.mpr ⟨octant, by rw [Nat.zero_add]; exact found⟩), rfl, rfl,
      by rw [cellAtSnoc, ← cell]⟩

theorem leadsRoot {path : List Nat} (leads : Leads registry path tree skip) :
    ∃ root, treeAt registry registry.root = some root := by
  induction leads with
  | root here => exact ⟨_, here⟩
  | down _ _ ih => exact ih

theorem rootMeets {path : List Nat} (ordered : Ordered cell) (met : meets query (cellAt arithmetic cell path) = true) :
    meets query cell = true := by
  induction path using List.reverseRecOn with
  | nil => exact met
  | append_singleton path i ih =>
    rw [cellAtSnoc] at met
    exact ih (childMeets (cellAtOrdered ordered) met)

theorem meetsInit {path : List Nat} (framed : Framed registry arithmetic)
    (met : meetsAt registry arithmetic query (path ++ [i])) : meetsAt registry arithmetic query path := by
  intro root here
  have next := met root here
  rw [cellAtSnoc] at next
  exact childMeets (cellAtOrdered (framed.ordered root here)) next

-- A walk that stops nowhere, when nothing resident meets the query.
theorem emptyCut (framed : Framed registry arithmetic) {treesToLoad : List (BitVec 32)}
    (root : registry.data ≠ [] → treeResident registry registry.root = false → registry.root ∈ treesToLoad)
    (nothing : ∀ path tree skip, Leads registry path tree skip → ¬meetsAt registry arithmetic query path) :
    Cut registry arithmetic query ⟨[], treesToLoad, 0⟩ [] where
  root := root
  places x mem := by cases mem
  nodes := rfl
  total := rfl
  shown x mem := by cases mem
  apart := List.Pairwise.nil
  one path tree skip leads _ _ met := absurd met (nothing path tree skip leads)
  loads path tree skip i id leads _ _ _ _ met := absurd (meetsInit framed met) (nothing path tree skip leads)

variable (registry arithmetic query) in
def startAt (root : Tree) : List (Spot (PendingNode R)) := [([], rootNode arithmetic registry query root)]

theorem rootLevel (root : Tree) : General.Descent.Level (startAt registry arithmetic query root) 0 :=
  ⟨fun x mem => by cases List.mem_singleton.mp mem; rfl, List.nodup_singleton _⟩

omit [LinearOrder R] in
theorem pointsAppend (first second : List (RegionNode R)) : pointsIn (first ++ second) = pointsIn first + pointsIn second := by
  simp [pointsIn]

theorem sumPoints (stops : List (Spot (PendingNode R))) : (walkOf registry arithmetic query).sum stops =
    pointsIn (stops.flatMap fun x => unitsAt registry arithmetic query x.1.length x.2) := by
  induction stops with
  | nil => rfl
  | cons x rest ih =>
    rw [sumCons, List.flatMap_cons, pointsAppend, ih]
    rfl

theorem rootedCut {root : Tree} {out : RegionResult R} {trail : Trail (PendingNode R)} (laid : Laid registry)
    (framed : Framed registry arithmetic) (here : treeAt registry registry.root = some root)
    (met : meets query (rootCell arithmetic registry root) = true)
    (walked : trail = descend (walkOf registry arithmetic query) maxDepth 0 (startAt registry arithmetic query root))
    (adds : Adds registry arithmetic query ⟨[], [], 0⟩ trail out) : Cut registry arithmetic query out trail.stops := by
  have places : ∀ x ∈ trail.stops, Leads registry x.1 x.2.tree x.2.skip ∧ meetsAt registry arithmetic query x.1 := by
    intro x mem
    rw [walked] at mem
    obtain ⟨y, first, path, reached, below⟩ := stopUnder mem
    cases List.mem_singleton.mp first
    have found : Leads registry ([] ++ path) x.2.tree x.2.skip ∧
        x.2.cell = cellAt arithmetic (rootCell arithmetic registry root) ([] ++ path) ∧ meets query x.2.cell = true :=
      belowLeads below (.root here) rfl met
    rw [reached]
    refine ⟨found.1, fun root' here' => ?_⟩
    cases here'.symm.trans here
    exact found.2.1 ▸ found.2.2
  have reach : ∀ path tree skip, Leads registry path tree skip → meetsAt registry arithmetic query path → ∃ n,
      Below (walkOf registry arithmetic query) 0 (rootNode arithmetic registry query root) path n ∧ n.tree = tree ∧
        n.skip = skip ∧ n.cell = cellAt arithmetic (rootCell arithmetic registry root) path :=
    fun path tree skip leads met => leadsBelow framed leads here (met root here)
  refine ⟨?_, places, ?_, ?_, ?_, ?_, ?_, ?_⟩
  · intro _ unresident
    rw [treeAt, unresident] at here
    cases here
  · simpa using adds.nodes
  · rw [adds.total, adds.nodes, sumPoints]
    simp
  · intro x mem
    exact emitSpec laid (leadsInside laid (places x mem).1)
  · rw [walked]
    exact stopsApart labelled (rootLevel root)
  · intro path tree skip leads leaf near met'
    obtain ⟨n, below, rfl, rfl, _⟩ := reach path tree skip leads met'
    rw [walked]
    refine oneStop labelled (rootLevel root) (List.mem_singleton.mpr rfl) below near fun sofar => ?_
    simp only [walkOf, List.nil_append, leaf, Option.any_some, descends]
    simp
  · intro path tree skip i id leads near last sub unresident met'
    obtain ⟨n, below, rfl, rfl, cell⟩ := reach path tree skip leads (meetsInit framed met')
    have found : (∃ y ∈ trail.stops, y.1 <+: [] ++ path) ∨ ([] ++ path, n) ∈ trail.opened := by
      rw [walked]
      exact metOrOpened 0 (List.mem_singleton.mpr rfl) below near
    rcases found with ⟨y, stop, within⟩ | opened
    · exact .inr ⟨y, stop, within⟩
    · refine .inl ?_
      rw [adds.loads]
      have next := met' root here
      rw [cellAtSnoc, ← cell] at next
      refine List.mem_append_right _ (List.mem_flatMap.mpr ⟨_, opened, List.mem_filterMap.mpr
        ⟨i, List.mem_range.mpr (subTreeOctant sub), ?_⟩⟩)
      simp [missing, next, sub, unresident, levelOf, last, Option.filter_some]

theorem shuts (mode : query.lodMode = .pointBudget) : Shuts (walkOf registry arithmetic query) query.maxPoints := by
  intro total depth p full
  cases masked : maskAt depth p.tree p.skip with
  | none => simp [walkOf, masked]
  | some mask => simp [walkOf, masked, descends, mode, full]

theorem idleLeaf (mode : query.lodMode = .pointBudget) {x : Spot (PendingNode R)} {mask : BitVec 8}
    (masked : maskAt x.1.length x.2.tree x.2.skip = some mask)
    (idle : Idle (walkOf registry arithmetic query) query.maxPoints x) : mask = 0 := by
  obtain ⟨sofar, few, shut⟩ := idle
  have under : ¬query.maxPoints ≤ sofar := Nat.not_le_of_lt few
  simpa [walkOf, masked, descends, mode, under] using shut

theorem budgetedStops (mode : query.lodMode = .pointBudget) {root : Tree} {out : RegionResult R}
    {stops : List (Spot (PendingNode R))}
    (walked : stops = (descend (walkOf registry arithmetic query) maxDepth 0 (startAt registry arithmetic query root)).stops)
    (cut : Cut registry arithmetic query out stops) : Budgeted registry arithmetic query stops := by
  have leaf : ∀ x ∈ stops, Idle (walkOf registry arithmetic query) query.maxPoints x →
      maskAt x.1.length x.2.tree x.2.skip = some 0 := by
    intro x mem idle
    obtain ⟨mask, _, shown⟩ := cut.shown x mem
    rw [shown.masked, idleLeaf mode shown.masked idle]
  have shut : Shuts (walkOf registry arithmetic query) query.maxPoints := shuts mode
  rcases Nat.eq_zero_or_pos query.maxPoints with zero | few
  · refine .none_ zero fun x mem => ?_
    rw [walked, maxDepth, descendShut shut (Nat.le_of_eq zero)] at mem
    cases List.mem_singleton.mp mem
    rfl
  · have spent : Spent (walkOf registry arithmetic query) query.maxPoints 0 stops := by
      rw [walked]
      exact descendSpent shut few (rootLevel root).lengths
    cases spent with
    | under idle below => exact .under (fun x mem => leaf x mem (idle x mem)) (by omega)
    | @reached before x after idle below reaches near =>
      refine .reached (fun y mem => leaf y ?_ (idle y mem)) (by omega) (by omega) near
      rcases List.mem_append.mp mem with first | last
      · exact List.mem_append_left _ first
      · cases List.mem_singleton.mp last
        exact List.mem_append_right _ List.mem_cons_self

theorem cutRepresented (mode : query.lodMode = .pointBudget) (laid : Laid registry) (sampled : Sampled registry)
    {out : RegionResult R} {stops : List (Spot (PendingNode R))} (cut : Cut registry arithmetic query out stops) :
    Represented registry arithmetic query out stops := by
  intro x mem mask collection shown filled met
  have inside := leadsInside laid (cut.places x mem).1
  have partial_ : query.lodMode ≠ .full := by
    rw [mode]
    decide
  obtain ⟨subset, held, takes⟩ : ∃ subset ∈ collection.data, taken query mask subset := by
    by_cases leaf : mask = 0
    · obtain ⟨subset, held⟩ := List.exists_mem_of_ne_nil _ (filled leaf)
      exact ⟨subset, held, by rw [taken, if_neg partial_]; exact .inl leaf⟩
    · obtain ⟨subset, held, lod⟩ := sampled.interior _ inside.held _ _ _ _ (atNat shown.masked).2 (atNat shown.held).2 leaf
      exact ⟨subset, held, by rw [taken, if_neg partial_]; exact .inr lod⟩
  obtain ⟨n, first, entry⟩ := shown.each met subset held takes
  rw [taken, if_neg partial_] at takes
  refine ⟨n, ?_, subset, held, takes, entry⟩
  rw [cut.nodes]
  exact List.mem_flatMap.mpr ⟨x, mem, first⟩

theorem regionCut (laid : Laid registry) (sampled : Sampled registry) (framed : Framed registry arithmetic)
    (mode : query.lodMode = .pointBudget) : ∃ out stops, regionWalk arithmetic registry query = some out ∧
      Cut registry arithmetic query out stops ∧ Represented registry arithmetic query out stops ∧
      Budgeted registry arithmetic query stops := by
  suffices found : ∃ out stops, regionWalk arithmetic registry query = some out ∧
      Cut registry arithmetic query out stops ∧ Budgeted registry arithmetic query stops by
    obtain ⟨out, stops, walked, cut, budgeted⟩ := found
    exact ⟨out, stops, walked, cut, cutRepresented mode laid sampled cut, budgeted⟩
  have idle : Budgeted registry arithmetic query ([] : List (Spot (PendingNode R))) := by
    rcases Nat.eq_zero_or_pos query.maxPoints with zero | few
    · exact .none_ zero (by simp)
    · exact .under (by simp) (by simpa [Walk.sum] using few)
  rw [regionWalk]
  split
  · rename_i empty
    have nothing : registry.data = [] := List.isEmpty_iff.mp empty
    refine ⟨_, [], rfl, emptyCut framed (fun held => absurd nothing held) fun path tree skip leads => ?_, idle⟩
    obtain ⟨root, here⟩ := leadsRoot leads
    simp [treeAt, nothing] at here
  split
  · rename_i unresident
    refine ⟨_, [], rfl, emptyCut framed (fun _ _ => List.mem_singleton.mpr rfl) fun path tree skip leads => ?_, idle⟩
    obtain ⟨root, here⟩ := leadsRoot leads
    simp [treeAt, unresident] at here
  rename_i resident
  have loaded := Bool.of_not_eq_false resident
  have known := laid.resident _ loaded
  have unasked : registry.data ≠ [] → treeResident registry registry.root = false → registry.root ∈ ([] : List (BitVec 32)) :=
    fun _ unresident => absurd unresident resident
  rw [List.getElem?_eq_getElem known]
  split
  · rename_i absent
    cases absent
  · rename_i null
    refine ⟨_, [], rfl, emptyCut framed unasked fun path tree skip leads => ?_, idle⟩
    obtain ⟨root, here⟩ := leadsRoot leads
    simp [treeAt, loaded, List.getElem?_eq_getElem known, Option.some.inj null] at here
  · rename_i root held
    have here : treeAt registry registry.root = some root := by
      simp [treeAt, loaded, List.getElem?_eq_getElem known, Option.some.inj held]
    obtain ⟨collection, first, units⟩ := sampled.root root here
    rw [walkRoot]
    split
    · rename_i none_
      rw [none_] at first
      cases first
    · rename_i collection' rest levels
      rw [levels] at first
      cases first
      rw [if_neg units]
      split
      · rename_i outside
        refine ⟨_, [], rfl, emptyCut framed unasked fun path tree skip leads met => ?_, idle⟩
        have inside := rootMeets (framed.ordered root here) (met root here)
        rw [outside] at inside
        cases inside
      · rename_i inside
        have begin_ : AllInside registry 0 (startAt registry arithmetic query root) := by
          intro x mem
          cases List.mem_singleton.mp mem
          exact ⟨rfl, rootInside laid (treeAtHeld here) rfl⟩
        obtain ⟨out, walked, adds⟩ := walkLevelsSpec laid begin_ ⟨[], [], 0⟩
        have cut := rootedCut laid framed here (Bool.of_not_eq_false inside) rfl adds
        exact ⟨out, _, walked, cut, budgetedStops mode rfl cut⟩

/-! ## A budget that does not hold -/

def rootUnit (registry : TreeRegistry) : Nat :=
  match (registry.data[registry.root.toNat]?).join with
  | none => 0
  | some root => match (root.levels 0).data with
    | [] => 0
    | collection :: _ => ((collection.data.filter fun subset => !inputDataIdIsLeaf subset.inputId).map fun subset =>
        subset.count.toNat).sum

def codeOf (n : BitVec 64) : Code .m192 := ⟨fun k => if k.val = 0 then n else 0⟩

-- Steps of thirty-two, so that the midpoints of the upper levels are whole.
def coarse : Arithmetic Int where
  mid a b := (a + b) / 2
  convertMortonToPos _ c k := 32 * ((List.range 5).map fun i => if c.bit (3 * i + k.val) then (2 : Int) ^ i else 0).sum
  between a b le := by omega

def unit (id : InputDataId) (count : BitVec 32) (min max : BitVec 64) : PointsCollection :=
  ⟨count.setWidth 64, codeOf min, codeOf max, 0, [⟨id, 0, count⟩]⟩

def sample : InputDataId := ⟨0, 0x80000000⟩
def firstLeaf : InputDataId := ⟨1, 0⟩
def secondLeaf : InputDataId := ⟨2, 0⟩

def twoLeaves : Tree where
  mortonMin := codeOf 0
  mortonMax := codeOf 0x7FFF
  levels
    | 0 => ⟨[3], [0], [0], [unit sample 1 0 0x1001]⟩
    | 1 => ⟨[0, 0], [0, 0], [0, 1], [unit firstLeaf 2 0 7, unit secondLeaf 2 0x1000 0x1001]⟩
    | _ => ⟨[], [], [], []⟩
  subTrees := []
  id := 0
  magnitude := 0
  storageMap := ⟨[⟨sample, 0, 1, []⟩, ⟨firstLeaf, 0, 1, []⟩, ⟨secondLeaf, 0, 1, []⟩], by decide⟩

def twoLeavesRegistry : TreeRegistry where
  nodeLimit := 1
  currentId := 1
  root := 0
  treeConfig := ⟨0, fun _ => 0, false, 2, 0, 0, 0, 0, 0⟩
  currentLodNodeId := 0x8000000000000001
  currentCollapsedNodeId := 0x4000000000000000
  chunkTreeRefs := []
  lodWatermark := codeOf 0
  data := [some twoLeaves]
  locations := []
  treeIdInitialized := [true]
  treeState := []
  treeBand := []
  inputRegistrySnapshot := []

def onePoint : RegionQuery Int := ⟨⟨fun _ => 0, fun _ => 992⟩, .pointBudget, 0, 1, false⟩

theorem twoLeavesAt {id : BitVec 32} (here : treeResident twoLeavesRegistry id = true) : id.toNat = 0 := by
  cases place : id.toNat with
  | zero => rfl
  | succ n => simp [treeResident, twoLeavesRegistry, place] at here

theorem twoLeavesLaid : Laid twoLeavesRegistry := by
  refine ⟨fun tree held => ?_, fun id resident => ?_⟩
  · cases List.mem_singleton.mp held
    refine ⟨by decide, by decide, by decide, by decide, by decide, ?_⟩
    intro level skip mask first masked skips interior
    obtain ⟨high, rfl⟩ := List.getElem?_eq_some_iff.mp masked
    obtain ⟨high', rfl⟩ := List.getElem?_eq_some_iff.mp skips
    revert skip level
    decide
  · rw [twoLeavesAt resident]
    decide

theorem twoLeavesSampled : Sampled twoLeavesRegistry := by
  refine ⟨fun tree held => ?_, fun tree here => ?_⟩
  · cases List.mem_singleton.mp held
    intro level skip mask collection masked held interior
    obtain ⟨high, rfl⟩ := List.getElem?_eq_some_iff.mp masked
    obtain ⟨high', rfl⟩ := List.getElem?_eq_some_iff.mp held
    clear masked held
    revert skip level
    decide
  · cases here
    exact ⟨_, rfl, by decide⟩

theorem twoLeavesFramed : Framed twoLeavesRegistry coarse := by
  refine ⟨fun root here => ?_⟩
  cases here
  unfold Ordered
  decide +kernel

-- Forty interior nodes under one another, and a leaf below them.
def chainTree (n : Nat) : Tree where
  mortonMin := codeOf 0
  mortonMax := codeOf 0x7FFF
  levels level := ⟨[if n < 8 then 1 else 0], [0], [0], [unit (if n < 8 then sample else firstLeaf) 1 0 0]⟩
  subTrees := [BitVec.ofNat 32 (n + 1)]
  id := BitVec.ofNat 32 n
  magnitude := BitVec.ofNat 8 (8 - n)
  storageMap := ⟨[⟨sample, 0, 5, []⟩, ⟨firstLeaf, 0, 5, []⟩], by decide⟩

def chainRegistry : TreeRegistry :=
  { twoLeavesRegistry with data := (List.range 10).map fun n => some (chainTree n), treeIdInitialized := List.replicate 9 true }

theorem chainIndex {n : Nat} (interior : n < 8) (level : Fin 5) : childIndex level (chainTree n) 0 0 = some 0 := by
  simp [childIndex, chainTree, at_, interior, ordinal]

theorem chainNext {n : Nat} (interior : n < 8) : treeAt chainRegistry (BitVec.ofNat 32 (n + 1)) = some (chainTree (n + 1)) := by
  have place : (BitVec.ofNat 32 (n + 1)).toNat = n + 1 := by
    rw [BitVec.toNat_ofNat]
    omega
  have resident : treeResident chainRegistry (BitVec.ofNat 32 (n + 1)) = true := by
    have known : (List.replicate 9 true)[n + 1]? = some true := by
      rw [List.getElem?_replicate, if_pos (by omega)]
    rw [treeResident, place, chainRegistry, known]
    rfl
  have held : chainRegistry.data[n + 1]? = some (some (chainTree (n + 1))) := by
    rw [chainRegistry, List.getElem?_map, List.getElem?_range (by omega)]
    rfl
  rw [treeAt, if_pos resident, place, held]
  rfl

theorem chainLeads {depth : Nat} (near : depth ≤ 40) :
    Leads chainRegistry (List.replicate depth 0) (chainTree (depth / 5)) 0 := by
  induction depth with
  | zero => exact .root rfl
  | succ depth ih =>
    rw [List.replicate_succ']
    have interior : depth / 5 < 8 := by omega
    refine .down (ih (by omega)) ?_
    rw [List.length_replicate, childAt]
    split
    · rename_i last
      have level : depth % 5 = 4 := congrArg Fin.val last
      have next : (depth + 1) / 5 = depth / 5 + 1 := by omega
      have named : subTreeAt (chainTree (depth / 5)) 0 0 = some (BitVec.ofNat 32 (depth / 5 + 1)) := by
        rw [subTreeAt, chainIndex interior]
        rfl
      rw [named, next, Option.bind_some, chainNext interior]
      rfl
    · rename_i last
      have level : depth % 5 ≠ 4 := fun same => last (Fin.ext same)
      have next : (depth + 1) / 5 = depth / 5 := by omega
      rw [chainIndex interior, next]
      rfl

theorem chainHeld {tree : Tree} (held : some tree ∈ chainRegistry.data) : ∃ n, tree = chainTree n := by
  obtain ⟨n, _, same⟩ := List.mem_map.mp held
  exact ⟨n, (Option.some.inj same).symm⟩

theorem chainLaid : Laid chainRegistry := by
  refine ⟨fun tree held => ?_, fun id resident => ?_⟩
  · obtain ⟨n, rfl⟩ := chainHeld held
    refine ⟨by simp [chainTree], by simp [chainTree], by simp [chainTree], by simp [chainTree], ?_, ?_⟩
    · intro level collection held subset mem
      cases List.mem_singleton.mp held
      cases List.mem_singleton.mp mem
      by_cases interior : n < 8
      · rw [if_pos interior]
        exact (show ((chainTree 0).storageMap.attributeId sample).isSome = true by decide)
      · rw [if_neg interior]
        exact (show ((chainTree 0).storageMap.attributeId firstLeaf).isSome = true by decide)
    · intro level skip mask first masked skips interior
      cases List.mem_singleton.mp (List.mem_of_getElem? skips)
      have one : mask = 1 := by
        rw [List.mem_singleton.mp (List.mem_of_getElem? masked)] at interior ⊢
        split at interior
        · exact if_pos ‹_›
        · exact absurd rfl interior
      have room : below (chainTree n) level = 1 := by simp [below, chainTree]
      rw [one, room]
      decide
  · rw [treeResident, chainRegistry, List.getElem?_replicate] at resident
    split at resident
    · rename_i near
      simp only [chainRegistry, List.length_map, List.length_range]
      omega
    · cases resident

theorem chainSampled : Sampled chainRegistry := by
  refine ⟨fun tree held => ?_, fun tree here => ?_⟩
  · obtain ⟨n, rfl⟩ := chainHeld held
    intro level skip mask collection masked held interior
    cases List.mem_singleton.mp (List.mem_of_getElem? held)
    rw [List.mem_singleton.mp (List.mem_of_getElem? masked)] at interior
    split at interior
    · rename_i inner
      refine ⟨_, List.mem_singleton.mpr rfl, ?_⟩
      rw [if_pos inner]
      decide
    · exact absurd rfl interior
  · cases here
    exact ⟨_, rfl, by decide⟩

theorem budgetOvershot : (Laid twoLeavesRegistry ∧ Sampled twoLeavesRegistry ∧ onePoint.lodMode = .pointBudget ∧
      ((regionWalk coarse twoLeavesRegistry onePoint).map RegionResult.totalPoints = some 4) ∧
      max onePoint.maxPoints (rootUnit twoLeavesRegistry) = 1) ∧
    Laid chainRegistry ∧ Sampled chainRegistry ∧
      Leads chainRegistry (List.replicate 40 0) (chainTree 8) 0 ∧ maskAt 40 (chainTree 8) 0 = some 0 ∧
      (regionWalk coarse chainRegistry onePoint).map (fun out => out.nodes.length) = some 0 :=
  ⟨⟨twoLeavesLaid, twoLeavesSampled, rfl, by decide +kernel, by decide +kernel⟩, chainLaid, chainSampled,
    chainLeads (Nat.le_refl 40),    by decide, by decide +kernel⟩

theorem regionCutTwoLeaves : ∃ out stops, regionWalk coarse twoLeavesRegistry onePoint = some out ∧
    Cut twoLeavesRegistry coarse onePoint out stops ∧ Represented twoLeavesRegistry coarse onePoint out stops ∧
    Budgeted twoLeavesRegistry coarse onePoint stops :=
  regionCut twoLeavesLaid twoLeavesSampled twoLeavesFramed rfl

end Dewfall.RegionCut
