import Dewfall.Converter.TreeReparent

/-! The nodes that a pass generates level-of-detail data for, gathered level by level over the arrays of the trees.
A node that is not below the target is dropped with all below it; one that is below the finished range and has its
data is only handed to its parent. An access outside an array gives no result; the debug shadow arrays and the
trees' states are left out. -/
namespace Dewfall.LodWork
open StorageMap PointSplitter MortonTree TreeReparent

-- `child_data` and `child_trees`, which are pushed together.
structure ChildData where
  data : Collection
  tree : Nat

-- What the worker of a node reads and writes is kept with the pass.
structure Node where
  nodeMin : Nat
  id : Nat
  lod : Nat
  storageName : InputId
  childData : List ChildData

structure TreeWork where
  treeId : Nat
  magnitude : Nat
  nodes : Nat → List Node

structure Limits where
  max : Nat
  already : Nat

def treeLevelToLod (magnitude level : Nat) : Nat := magnitudeToLod magnitude - level
def createMax (lod min : Nat) : Nat := (8 ^ (lod + 1) - 1) ||| min
def setNameInMorton (magnitude morton name : Nat) : Nat := morton ||| name <<< (magnitude * 15)

def nodeMinOf (t : Tree) (name : Nat) : Nat := setNameInMorton t.magnitude t.mortonMin name
def nodeMaxOf (t : Tree) (level name : Nat) : Nat := createMax (treeLevelToLod t.magnitude level) (nodeMinOf t name)

-- The counter's two halves are the identifier.
def getNextInputId (lodIds : Nat) : InputId := ⟨lodIds % 2 ^ 32, lodIds / 2 ^ 32⟩

structure Entry where
  parent : Nat
  skip : Nat
  name : Nat

-- A level while it is gone through: the nodes above it, and those of its own with their children.
structure Sweep where
  tree : Tree
  lodIds : Nat
  above : List Node
  below : List Node
  next : List Entry

def handOver (treeId : Nat) (s : Sweep) (e : Entry) (data : Collection) : Sweep :=
  { s with above := s.above.modify e.parent fun up => { up with childData := up.childData ++ [⟨data, treeId⟩] } }

def setData (t : Tree) (level skip : Nat) (data : Collection) : Tree :=
  setLevel t level { t.levels level with data := (t.levels level).data.set skip data }

-- The offset and the count of a placeholder say that the whole unit is meant.
def placeholder (lodIds : Nat) : Subset := ⟨getNextInputId lodIds, 2 ^ 32 - 1, 0⟩

def childEntries (level id skips node parent : Nat) : List Entry :=
  let parentNodeName := if level = 4 then 0 else (id <<< 3) % 2 ^ 16
  let nodeNameLevel := if level = 4 then 0 else level
  ((List.range 8).filter fun i => node.testBit i).mapIdx fun count i =>
    ⟨parent, skips + count, getName parentNodeName nodeNameLevel i⟩

def newNode (t : Tree) (level id nodeMin : Nat) (storageName : InputId) : Node :=
  ⟨nodeMin, id, treeLevelToLod t.magnitude level, storageName, []⟩

def collect (s : Sweep) (level id skips node nodeMin : Nat) (storageName : InputId) : Sweep :=
  { s with
    below := s.below ++ [newNode s.tree level id nodeMin storageName]
    next := s.next ++ childEntries level id skips node s.below.length }

def visit (limits : Limits) (treeId level : Nat) (s : Sweep) (e : Entry) : Option Sweep :=
  let l := s.tree.levels level
  match l.nodes[e.skip]?, l.data[e.skip]?, l.nodeIds[e.skip]?, l.skips[e.skip]? with
  | some node, some data, some id, some skips =>
    let nodeMin := nodeMinOf s.tree e.name
    let nodeMax := nodeMaxOf s.tree level e.name
    if ¬ nodeMax < limits.max then some s
    else if node ≠ 0 ∧ nodeMax < limits.already ∧ 0 < data.pointCount ∧ data.data.length = 1 then
      some (handOver treeId s e data)
    else if node = 0 then some (if data.data = [] then s else handOver treeId s e data)
    else
      match data.data with
      | [] =>
        let name := placeholder s.lodIds
        let data := { data with data := [name] }
        let s := { s with tree := setData s.tree level e.skip data, lodIds := s.lodIds + 1 }
        some (handOver treeId (collect s level id skips node nodeMin name.inputId) e data)
      | first :: _ => some (handOver treeId (collect s level id skips node nodeMin first.inputId) e data)
  | _, _, _, _ => none

structure Gather where
  tree : Tree
  lodIds : Nat
  parents : List Node
  entries : List Entry
  nodes : Nat → List Node

-- A level without entries adds nothing.
def gatherLevel (limits : Limits) (treeId : Nat) (g : Gather) (level : Nat) : Option Gather :=
  (g.entries.foldlM (visit limits treeId level) ⟨g.tree, g.lodIds, g.parents, [], []⟩).map fun s =>
    ⟨s.tree, s.lodIds, s.below, s.next, Function.update g.nodes (level - 1) s.above⟩

structure Pass where
  registry : Registry
  lodIds : Nat
  toLod : List TreeWork

def rootEntry (t : Tree) : Entry := ⟨0, 0, getChildMask t.lod t.mortonMin <<< (4 * 3)⟩

-- The node above is handed what the root has.
def gatherTree (limits : Limits) (treeId : Nat) (t : Tree) (lodIds : Nat) (parent : Node) : Option (Node × Gather) :=
  match visit limits treeId 0 ⟨t, lodIds, [parent], [], []⟩ (rootEntry t) with
  | none => none
  | some s =>
    ([1, 2, 3, 4].foldlM (gatherLevel limits treeId) ⟨s.tree, s.lodIds, s.below, s.next, fun _ => []⟩).map fun g =>
      (s.above.headD parent, g)

def subTreeWith (items : Pass → Nat → Node → Option (Pass × Node)) (subTrees : List Nat) (s : Pass × List Node)
    (e : Entry) : Option (Pass × List Node) :=
  match subTrees[e.skip]?, s.2[e.parent]? with
  | some subTree, some up => (items s.1 subTree up).map fun (p, up) => (p, s.2.set e.parent up)
  | _, _ => none

def treeGetWorkItems (limits : Limits) : Nat → Pass → Nat → Node → Option (Pass × Node)
  | 0, _, _, _ => none
  | fuel + 1, p, treeId, parent =>
    match p.registry.get treeId with
    | none => none
    | some t =>
      if (t.levels 0).nodes = [] then some (p, parent)
      else
        match gatherTree limits treeId t p.lodIds parent with
        | none => none
        | some (parent, g) =>
          (g.entries.foldlM (subTreeWith (treeGetWorkItems limits fuel) t.subTrees)
            (⟨p.registry.set treeId g.tree, g.lodIds, p.toLod⟩, g.parents)).map fun (p, parents) =>
            let work : TreeWork := ⟨treeId, t.magnitude, Function.update g.nodes 4 parents⟩
            (if work.nodes 0 = [] then p else { p with toLod := p.toLod ++ [work] }, parent)

/-! ## What a tree keeps -/

-- All but the nodes' data.
structure Same (t t' : Tree) : Prop where
  nodes : ∀ l, (t'.levels l).nodes = (t.levels l).nodes
  skips : ∀ l, (t'.levels l).skips = (t.levels l).skips
  nodeIds : ∀ l, (t'.levels l).nodeIds = (t.levels l).nodeIds
  magnitude : t'.magnitude = t.magnitude
  mortonMin : t'.mortonMin = t.mortonMin
  subTrees : t'.subTrees = t.subTrees

theorem Same.refl (t : Tree) : Same t t := ⟨fun _ => rfl, fun _ => rfl, fun _ => rfl, rfl, rfl, rfl⟩

theorem Same.trans {t u v : Tree} (first : Same t u) (then_ : Same u v) : Same t v :=
  ⟨fun l => (then_.nodes l).trans (first.nodes l), fun l => (then_.skips l).trans (first.skips l),
    fun l => (then_.nodeIds l).trans (first.nodeIds l), then_.magnitude.trans first.magnitude,
    then_.mortonMin.trans first.mortonMin, then_.subTrees.trans first.subTrees⟩

theorem setDataSame (t : Tree) (level skip : Nat) (data : Collection) : Same t (setData t level skip data) := by
  refine ⟨fun l => ?_, fun l => ?_, fun l => ?_, rfl, rfl, rfl⟩
  all_goals
    unfold setData setLevel
    dsimp only
    by_cases here : l = level
    · subst here
      rw [Function.update_self]
    · rw [Function.update_of_ne here]

def nodeAt (t : Tree) (l k : Nat) : Option Nat := (t.levels l).nodes[k]?
def dataAt (t : Tree) (l k : Nat) : Option Collection := (t.levels l).data[k]?

theorem setDataAt (t : Tree) (level skip : Nat) (data : Collection) (l k : Nat) :
    dataAt (setData t level skip data) l k =
      if l = level ∧ k = skip then (dataAt t l k).map fun _ => data else dataAt t l k := by
  unfold dataAt setData setLevel
  dsimp only
  by_cases here : l = level
  · subst here
    rw [Function.update_self, List.getElem?_set]
    by_cases same : skip = k
    · subst same
      rw [if_pos rfl]
      by_cases inside : skip < (t.levels l).data.length
      · rw [if_pos inside, if_pos ⟨rfl, rfl⟩, List.getElem?_eq_getElem inside]
        rfl
      · rw [if_neg inside, if_pos ⟨rfl, rfl⟩, List.getElem?_eq_none (by omega)]
        rfl
    · rw [if_neg same, if_neg fun both => same both.2.symm]
  · rw [Function.update_of_ne here, if_neg fun both => here both.1]

-- A node with children and without data is given a placeholder.
inductive Filled (node : Option Nat) : Option Collection → Option Collection → Prop where
  | same (d) : Filled node d d
  | filled {d : Collection} (m : Nat) (none_ : d.data = []) (inner : node ≠ some 0) :
    Filled node (some d) (some { d with data := [placeholder m] })

theorem Filled.trans {node : Option Nat} {a b c} (first : Filled node a b) (then_ : Filled node b c) : Filled node a c := by
  cases first with
  | same => exact then_
  | filled m none_ inner =>
    cases then_ with
    | same => exact .filled m none_ inner
    | filled m' none' => cases none'

structure Grown (t t' : Tree) : Prop extends Same t t' where
  storageMap : t'.storageMap = t.storageMap
  data : ∀ l k, Filled (nodeAt t l k) (dataAt t l k) (dataAt t' l k)

theorem Same.node {t t' : Tree} (same : Same t t') (l k : Nat) : nodeAt t' l k = nodeAt t l k := by
  rw [nodeAt, same.nodes, nodeAt]

theorem Grown.refl (t : Tree) : Grown t t := ⟨Same.refl t, rfl, fun _ _ => .same _⟩

theorem Grown.trans {t u v : Tree} (first : Grown t u) (then_ : Grown u v) : Grown t v := by
  refine ⟨first.toSame.trans then_.toSame, then_.storageMap.trans first.storageMap, fun l k => ?_⟩
  have second := then_.data l k
  rw [first.toSame.node] at second
  exact (first.data l k).trans second

theorem setDataGrown {t : Tree} {level skip node : Nat} {data : Collection} (m : Nat)
    (here : dataAt t level skip = some data) (inner : nodeAt t level skip = some node) (some_ : node ≠ 0)
    (none_ : data.data = []) : Grown t (setData t level skip { data with data := [placeholder m] }) := by
  refine ⟨setDataSame .., rfl, fun l k => ?_⟩
  rw [setDataAt]
  split
  · rename_i place
    obtain ⟨rfl, rfl⟩ := place
    rw [here, Option.map_some]
    refine .filled m none_ ?_
    rw [inner]
    exact fun zero => some_ (Option.some.inj zero)
  · exact .same _

-- A leaf's units are known; a node with children has no data, or the one unit it was given a name for.
structure Plain (t : Tree) : Prop where
  leaf : ∀ {l k d}, l < 5 → nodeAt t l k = some 0 → dataAt t l k = some d → ∀ s ∈ d.data, t.storageMap.contains s.inputId
  inner : ∀ {l k node d}, l < 5 → nodeAt t l k = some node → node ≠ 0 → dataAt t l k = some d →
    (d.data = [] ∧ d.pointCount = 0) ∨
      ∃ s, d.data = [s] ∧ (0 < d.pointCount → t.storageMap.contains s.inputId)

theorem Plain.grown {t t' : Tree} (plain : Plain t) (grown : Grown t t') : Plain t' := by
  refine ⟨fun {l k d} deep zero here s mem => ?_, fun {l k node d} deep inner some_ here => ?_⟩
  · have filled := grown.data l k
    rw [grown.toSame.node] at zero
    rw [here] at filled
    rw [grown.storageMap]
    generalize before : dataAt t l k = was at filled
    cases filled with
    | same => exact plain.leaf deep zero before s mem
    | filled m none_ inner => exact absurd zero inner
  · have filled := grown.data l k
    rw [grown.toSame.node] at inner
    rw [here] at filled
    rw [grown.storageMap]
    generalize before : dataAt t l k = was at filled
    cases filled with
    | same => exact plain.inner deep inner some_ before
    | filled m none_ =>
      refine Or.inr ⟨_, rfl, fun counted => ?_⟩
      rcases plain.inner deep inner some_ before with ⟨_, zero⟩ | ⟨s, one, _⟩
      · dsimp only at counted
        omega
      · rw [none_] at one
        cases one

/-! ## One level -/

-- What a work item stands for: a node with children, whose unit it is named after.
structure Item (t : Tree) (level k : Nat) (n : Node) : Prop where
  inner : ∃ node, nodeAt t level k = some node ∧ node ≠ 0
  id : (t.levels level).nodeIds[k]? = some n.id
  counted : ∃ skips, (t.levels level).skips[k]? = some skips
  unit : ∃ d s, dataAt t level k = some d ∧ d.data = [s] ∧ s.inputId = n.storageName

-- Data stays where a placeholder is not wanted.
theorem Grown.stays {t t' : Tree} (grown : Grown t t') {l k node : Nat} {d : Collection} (here : dataAt t l k = some d)
    (at_ : nodeAt t l k = some node) (settled : node = 0 ∨ d.data ≠ []) : dataAt t' l k = some d := by
  have filled := grown.data l k
  rw [here] at filled
  generalize dataAt t' l k = later at filled
  cases filled with
  | same => rfl
  | filled m none_ inner =>
    rcases settled with rfl | some_
    · exact absurd at_ inner
    · exact absurd none_ some_

theorem Item.grown {t t' : Tree} {level k : Nat} {n : Node} (item : Item t level k n) (grown : Grown t t') :
    Item t' level k n := by
  obtain ⟨node, at_, some_⟩ := item.inner
  obtain ⟨d, s, here, one, name⟩ := item.unit
  refine ⟨⟨node, by rw [grown.toSame.node, at_], some_⟩, by rw [grown.nodeIds, item.id], by rw [grown.skips]; exact item.counted,
    d, s, ?_, one, name⟩
  refine grown.stays here at_ (Or.inr ?_)
  rw [one]
  exact List.cons_ne_nil _ _

def entriesAt (t : Tree) (level k parent : Nat) : List Entry :=
  let l := t.levels level
  childEntries level (l.nodeIds.getD k 0) (l.skips.getD k 0) (l.nodes.getD k 0) parent

theorem Same.entries {t t' : Tree} (same : Same t t') : entriesAt t' = entriesAt t := by
  funext level k parent
  simp only [entriesAt, same.nodes, same.skips, same.nodeIds]

theorem Same.nodeMax {t t' : Tree} (same : Same t t') (level name : Nat) :
    nodeMaxOf t' level name = nodeMaxOf t level name := by
  simp only [nodeMaxOf, nodeMinOf, same.magnitude, same.mortonMin]

-- A node keeps what it was handed.
structure Fuller (n n' : Node) : Prop where
  id : n'.id = n.id
  storageName : n'.storageName = n.storageName
  childData : n.childData <+: n'.childData

theorem Fuller.refl (n : Node) : Fuller n n := ⟨rfl, rfl, List.prefix_refl _⟩

theorem Fuller.trans {a b c : Node} (first : Fuller a b) (then_ : Fuller b c) : Fuller a c :=
  ⟨then_.id.trans first.id, then_.storageName.trans first.storageName, first.childData.trans then_.childData⟩

def AlreadyDone (limits : Limits) (t : Tree) (level name : Nat) (data : Collection) : Prop :=
  nodeMaxOf t level name < limits.already ∧ 0 < data.pointCount ∧ data.data.length = 1

inductive Visited (limits : Limits) (treeId level : Nat) (s : Sweep) (e : Entry) : Sweep → Prop where
  | dropped (past : ¬ nodeMaxOf s.tree level e.name < limits.max) : Visited limits treeId level s e s
  | bare {data} (leaf : nodeAt s.tree level e.skip = some 0) (here : dataAt s.tree level e.skip = some data)
    (none_ : data.data = []) : Visited limits treeId level s e s
  | handed {node data} (below : nodeMaxOf s.tree level e.name < limits.max)
    (at_ : nodeAt s.tree level e.skip = some node) (here : dataAt s.tree level e.skip = some data)
    (ready : node = 0 ∧ data.data ≠ [] ∨ node ≠ 0 ∧ AlreadyDone limits s.tree level e.name data) :
    Visited limits treeId level s e (handOver treeId s e data)
  | collected {t lodIds n data} (below : nodeMaxOf s.tree level e.name < limits.max) (grown : Grown s.tree t)
      (item : Item t level e.skip n) (fresh : n.childData = [])
    (here : dataAt t level e.skip = some data) :
    Visited limits treeId level s e (handOver treeId
      ⟨t, lodIds, s.above, s.below ++ [n], s.next ++ entriesAt s.tree level e.skip s.below.length⟩ e data)

theorem visitCases {limits : Limits} {treeId level : Nat} (deep : level < 5) {s s' : Sweep} {e : Entry} (plain : Plain s.tree)
    (visited : visit limits treeId level s e = some s') : Visited limits treeId level s e s' := by
  unfold visit at visited
  dsimp only at visited
  split at visited
  · rename_i node data id skips at_ here named counted
    split at visited
    · rename_i past
      cases visited
      exact .dropped past
    · rename_i below
      split at visited
      · rename_i ready
        cases visited
        exact .handed (not_not.mp below) at_ here (Or.inr ⟨ready.1, ready.2⟩)
      · split at visited
        · rename_i leaf
          subst leaf
          split at visited
          · rename_i none_
            cases visited
            exact .bare at_ here none_
          · rename_i some_
            cases visited
            exact .handed (not_not.mp below) at_ here (Or.inl ⟨rfl, some_⟩)
        · rename_i some_
          have own : childEntries level id skips node s.below.length = entriesAt s.tree level e.skip s.below.length := by
            simp only [entriesAt, List.getD_eq_getElem?_getD, at_, named, counted, Option.getD_some]
          split at visited
          · rename_i none_
            cases visited
            have grown := setDataGrown s.lodIds here at_ some_ none_
            have place : dataAt (setData s.tree level e.skip { data with data := [placeholder s.lodIds] }) level e.skip =
                some { data with data := [placeholder s.lodIds] } := by
              rw [setDataAt, if_pos ⟨rfl, rfl⟩, show dataAt s.tree level e.skip = some data from here]
              rfl
            unfold collect
            dsimp only
            rw [own]
            refine .collected (not_not.mp below) grown ⟨⟨node, ?_, some_⟩, ?_, ⟨skips, ?_⟩, _, placeholder s.lodIds, place,
              rfl, rfl⟩ rfl place
            · rw [grown.toSame.node]
              exact at_
            · rw [grown.nodeIds, named]
              rfl
            · rw [grown.skips, counted]
          · rename_i first rest some'
            cases visited
            unfold collect
            rw [own]
            refine .collected (not_not.mp below) (Grown.refl _) ⟨⟨node, at_, some_⟩, named, ⟨skips, counted⟩, data, first, here,
              ?_, rfl⟩ rfl here
            rcases plain.inner deep at_ some_ here with ⟨none_, _⟩ | ⟨s, one, _⟩
            · rw [none_] at some'
              cases some'
            · rw [one] at some' ⊢
              cases some'
              rfl
  · cases visited

theorem handedAt {treeId : Nat} {s : Sweep} {e : Entry} {data : Collection} {i : Nat} {n' : Node}
    (at_ : (handOver treeId s e data).above[i]? = some n') : ∃ n, s.above[i]? = some n ∧ Fuller n n' ∧
      ∀ c ∈ n'.childData, c ∈ n.childData ∨ i = e.parent ∧ c = ⟨data, treeId⟩ := by
  unfold handOver at at_
  dsimp only at at_
  rw [List.getElem?_modify] at at_
  obtain ⟨n, before, rfl⟩ := Option.map_eq_some_iff.mp at_
  refine ⟨n, before, ?_⟩
  by_cases own : e.parent = i
  · rw [if_pos own]
    refine ⟨⟨rfl, rfl, List.prefix_append _ _⟩, fun c mem => ?_⟩
    rcases List.mem_append.mp mem with mem | mem
    · exact Or.inl mem
    · exact Or.inr ⟨own.symm, List.mem_singleton.mp mem⟩
  · rw [if_neg own]
    exact ⟨Fuller.refl n, fun c mem => Or.inl mem⟩

def AllFuller (above above' : List Node) : Prop :=
  above'.length = above.length ∧ ∀ {i : Nat} {n : Node}, above[i]? = some n → ∃ n', above'[i]? = some n' ∧ Fuller n n'

theorem AllFuller.refl (above : List Node) : AllFuller above above := ⟨rfl, fun at_ => ⟨_, at_, Fuller.refl _⟩⟩

theorem AllFuller.trans {a b c : List Node} (first : AllFuller a b) (then_ : AllFuller b c) : AllFuller a c := by
  refine ⟨then_.1.trans first.1, fun at_ => ?_⟩
  obtain ⟨n', at', fuller⟩ := first.2 at_
  obtain ⟨n'', at'', fuller'⟩ := then_.2 at'
  exact ⟨n'', at'', fuller.trans fuller'⟩

theorem handOverFuller (treeId : Nat) (s : Sweep) (e : Entry) (data : Collection) :
    AllFuller s.above (handOver treeId s e data).above := by
  refine ⟨List.length_modify .., fun {i n} at_ => ?_⟩
  cases at' : (handOver treeId s e data).above[i]? with
  | none =>
    have outside := List.getElem?_eq_none_iff.mp at'
    have inside := (List.getElem?_eq_some_iff.mp at_).1
    rw [handOver, List.length_modify] at outside
    omega
  | some n' =>
    obtain ⟨m, before, fuller, _⟩ := handedAt at'
    rw [at_] at before
    cases before
    exact ⟨n', rfl, fuller⟩

theorem handedOver {treeId : Nat} {s : Sweep} {e : Entry} (data : Collection) (inside : e.parent < s.above.length) :
    ∃ up, (handOver treeId s e data).above[e.parent]? = some up ∧ ⟨data, treeId⟩ ∈ up.childData := by
  unfold handOver
  dsimp only
  rw [List.getElem?_modify, List.getElem?_eq_getElem inside]
  dsimp only [Option.map_eq_map, Option.map_some]
  rw [if_pos rfl]
  exact ⟨_, rfl, List.mem_append_right _ (List.mem_singleton_self _)⟩

-- What may be handed over: units that are known, or that a node of the level is named after.
def Ready (t : Tree) (treeId : Nat) (below : List Node) (c : ChildData) : Prop :=
  c.tree = treeId ∧ ∀ u ∈ c.data.data, t.storageMap.contains u.inputId ∨ ∃ b ∈ below, b.storageName = u.inputId

-- How an entry that is below the target ends.
def Settled (limits : Limits) (treeId level : Nat) (t : Tree) (above : List Node) (positions : List Nat) (e : Entry) :
    Prop :=
  ∃ node d, nodeAt t level e.skip = some node ∧ dataAt t level e.skip = some d ∧
    (node = 0 ∧ d.data = [] ∨ (∃ up, above[e.parent]? = some up ∧ ⟨d, treeId⟩ ∈ up.childData) ∧ (node = 0 ∨
      d.data ≠ [] ∧ (AlreadyDone limits t level e.name d ∨ e.skip ∈ positions)))

structure Swept (limits : Limits) (treeId level : Nat) (s : Sweep) (entries : List Entry) (s' : Sweep)
    (positions : List Nat) (new : List Node) : Prop where
  grown : Grown s.tree s'.tree
  above : AllFuller s.above s'.above
  sub : positions.Sublist (entries.map Entry.skip)
  target : ∀ k ∈ positions, ∃ e ∈ entries, e.skip = k ∧ nodeMaxOf s.tree level e.name < limits.max
  below : s'.below = s.below ++ new
  items : List.Forall₂ (Item s'.tree level) positions new
  fresh : ∀ n ∈ new, n.childData = []
  next : s'.next = s.next ++ (positions.zipIdx s.below.length).flatMap fun p => entriesAt s.tree level p.1 p.2
  came : ∀ {i : Nat} {n' : Node}, s'.above[i]? = some n' → ∀ c ∈ n'.childData,
    (∃ n, s.above[i]? = some n ∧ c ∈ n.childData) ∨
      (∃ e ∈ entries, nodeMaxOf s.tree level e.name < limits.max) ∧ Ready s'.tree treeId new c
  settled : ∀ e ∈ entries, nodeMaxOf s.tree level e.name < limits.max → e.parent < s.above.length →
    Settled limits treeId level s'.tree s'.above positions e

theorem Settled.later {limits : Limits} {treeId level : Nat} {t t' : Tree} {above above' : List Node}
    {positions positions' : List Nat} {e : Entry} (settled : Settled limits treeId level t above positions e)
    (grown : Grown t t') (fuller : AllFuller above above') (sub : ∀ k ∈ positions, k ∈ positions') :
    Settled limits treeId level t' above' positions' e := by
  obtain ⟨node, d, at_, here, end_⟩ := settled
  have settles : node = 0 ∨ d.data ≠ [] := by
    rcases end_ with ⟨zero, _⟩ | ⟨_, zero | ⟨some_, _⟩⟩
    · exact Or.inl zero
    · exact Or.inl zero
    · exact Or.inr some_
  refine ⟨node, d, by rw [grown.toSame.node, at_], grown.stays here at_ settles, ?_⟩
  rcases end_ with bare | ⟨⟨up, upAt, mem⟩, kind⟩
  · exact Or.inl bare
  · obtain ⟨up', upAt', fullerUp⟩ := fuller.2 upAt
    refine Or.inr ⟨⟨up', upAt', fullerUp.childData.subset mem⟩, ?_⟩
    rcases kind with zero | ⟨some_, done | taken⟩
    · exact Or.inl zero
    · refine Or.inr ⟨some_, Or.inl ?_⟩
      rw [AlreadyDone, grown.toSame.nodeMax]
      exact done
    · exact Or.inr ⟨some_, Or.inr (sub _ taken)⟩

theorem Ready.later {t t' : Tree} {treeId : Nat} {below below' : List Node} {c : ChildData} (ready : Ready t treeId below c)
    (same : t'.storageMap = t.storageMap) (sub : ∀ b ∈ below, ∃ b' ∈ below', b'.storageName = b.storageName) :
    Ready t' treeId below' c := by
  refine ⟨ready.1, fun u mem => ?_⟩
  rw [same]
  rcases ready.2 u mem with known | ⟨b, inside, name⟩
  · exact Or.inl known
  · obtain ⟨b', inside', name'⟩ := sub b inside
    exact Or.inr ⟨b', inside', name'.trans name⟩

theorem sweptNil (limits : Limits) (treeId level : Nat) (s : Sweep) : Swept limits treeId level s [] s [] [] :=
  ⟨Grown.refl _, AllFuller.refl _, List.Sublist.refl _, fun _ mem => (nomatch mem), (List.append_nil _).symm, .nil,
    fun _ mem => (nomatch mem),
    (List.append_nil _).symm, fun {_ n'} at_ _ mem => Or.inl ⟨n', at_, mem⟩, fun _ mem => (nomatch mem)⟩

-- One entry: it is passed over, handed to the node above, or becomes a node of its level.
theorem visitSwept {limits : Limits} {treeId level : Nat} (deep : level < 5) {s s' : Sweep} {e : Entry} (plain : Plain s.tree)
    (visited : visit limits treeId level s e = some s') :
    ∃ positions new, Swept limits treeId level s [e] s' positions new := by
  cases visitCases deep plain visited with
  | dropped past =>
    refine ⟨[], [], { sweptNil limits treeId level s with
      sub := List.nil_sublist _, target := fun _ mem => (nomatch mem),
      came := fun {_ n'} at_ _ mem => Or.inl ⟨n', at_, mem⟩, settled := fun e' mem below => ?_ }⟩
    rw [List.mem_singleton.mp mem] at below
    exact absurd below past
  | bare leaf here none_ =>
    refine ⟨[], [], { sweptNil limits treeId level s with
      sub := List.nil_sublist _, target := fun _ mem => (nomatch mem),
      came := fun {_ n'} at_ _ mem => Or.inl ⟨n', at_, mem⟩, settled := fun e' mem _ _ => ?_ }⟩
    obtain rfl := List.mem_singleton.mp mem
    exact ⟨0, _, leaf, here, Or.inl ⟨rfl, none_⟩⟩
  | @handed node data below at_ here ready =>
    refine ⟨[], [], Grown.refl _, handOverFuller .., List.nil_sublist _, fun _ mem => (nomatch mem),
      (List.append_nil _).symm, .nil,
      fun _ mem => (nomatch mem), (List.append_nil _).symm, fun {i n'} at' c mem => ?_, fun e' mem _ inside => ?_⟩
    · obtain ⟨n, before, _, from_⟩ := handedAt at'
      rcases from_ c mem with old | ⟨_, rfl⟩
      · exact Or.inl ⟨n, before, old⟩
      · refine Or.inr ⟨⟨e, List.mem_singleton_self e, below⟩, rfl, fun u inside => Or.inl ?_⟩
        rcases ready with ⟨rfl, _⟩ | ⟨some_, done⟩
        · exact plain.leaf deep at_ here u inside
        · rcases plain.inner deep at_ some_ here with ⟨_, zero⟩ | ⟨s, one, known⟩
          · have counted := done.2.1
            omega
          · dsimp only at inside
            rw [one, List.mem_singleton] at inside
            rw [inside]
            exact known done.2.1
    · obtain rfl := List.mem_singleton.mp mem
      refine ⟨node, data, at_, here, Or.inr ⟨handedOver data inside, ?_⟩⟩
      rcases ready with ⟨zero, _⟩ | ⟨_, done⟩
      · exact Or.inl zero
      · refine Or.inr ⟨fun none_ => ?_, Or.inl done⟩
        have one := done.2.2
        rw [none_] at one
        cases one
  | @collected t lodIds n data below grown item fresh here =>
    have fuller := handOverFuller treeId ⟨t, lodIds, s.above, s.below ++ [n],
      s.next ++ entriesAt s.tree level e.skip s.below.length⟩ e data
    obtain ⟨node, at_, some_⟩ := item.inner
    obtain ⟨d, u, place, one, name⟩ := item.unit
    obtain rfl : d = data := Option.some.inj (place.symm.trans here)
    refine ⟨[e.skip], [n], grown, fuller, List.Sublist.refl _,
      fun k mem => ⟨e, List.mem_singleton_self e, (List.mem_singleton.mp mem).symm, below⟩, rfl, .cons item .nil,
      fun m mem => ?_, ?_,
      fun {i n'} at' c mem => ?_, fun e' mem _ inside => ?_⟩
    · rw [List.mem_singleton.mp mem]
      exact fresh
    · rw [List.zipIdx_singleton, List.flatMap_singleton]
      rfl
    · obtain ⟨m, before, _, from_⟩ := handedAt at'
      rcases from_ c mem with old | ⟨_, rfl⟩
      · exact Or.inl ⟨m, before, old⟩
      · refine Or.inr ⟨⟨e, List.mem_singleton_self e, below⟩, rfl, fun v inside => Or.inr ⟨n, List.mem_singleton_self n, ?_⟩⟩
        dsimp only at inside
        rw [one, List.mem_singleton] at inside
        rw [inside, name]
    · obtain rfl := List.mem_singleton.mp mem
      refine ⟨node, d, at_, here, Or.inr ⟨handedOver d inside, Or.inr ⟨?_, Or.inr (List.mem_singleton_self _)⟩⟩⟩
      rw [one]
      exact List.cons_ne_nil _ _

theorem Swept.trans {limits : Limits} {treeId level : Nat} {a b c : Sweep} {front back : List Entry}
    {positions positions' : List Nat} {new new' : List Node} (first : Swept limits treeId level a front b positions new)
    (then_ : Swept limits treeId level b back c positions' new') :
    Swept limits treeId level a (front ++ back) c (positions ++ positions') (new ++ new') := by
  refine ⟨first.grown.trans then_.grown, first.above.trans then_.above, ?_, fun k mem => ?_, ?_, ?_, fun n mem => ?_, ?_,
    fun {i n'} at_ x mem => ?_, fun e mem below inside => ?_⟩
  · rw [List.map_append]
    exact first.sub.append then_.sub
  · rcases List.mem_append.mp mem with mem | mem
    · obtain ⟨e, inside, skip, below⟩ := first.target k mem
      exact ⟨e, List.mem_append_left _ inside, skip, below⟩
    · obtain ⟨e, inside, skip, below⟩ := then_.target k mem
      rw [first.grown.toSame.nodeMax] at below
      exact ⟨e, List.mem_append_right _ inside, skip, below⟩
  · rw [then_.below, first.below, List.append_assoc]
  · exact List.rel_append (first.items.imp fun _ _ item => item.grown then_.grown) then_.items
  · rcases List.mem_append.mp mem with mem | mem
    · exact first.fresh n mem
    · exact then_.fresh n mem
  · rw [then_.next, first.next, List.append_assoc, List.zipIdx_append, List.flatMap_append, first.grown.toSame.entries,
      first.below, List.length_append, first.items.length_eq]
  · rcases then_.came at_ x mem with ⟨n, middle, old⟩ | ⟨⟨e, inside, below⟩, ready⟩
    · rcases first.came middle x old with before | ⟨⟨e, inside, below⟩, ready⟩
      · exact Or.inl before
      · exact Or.inr ⟨⟨e, List.mem_append_left _ inside, below⟩,
          ready.later then_.grown.storageMap fun n inside => ⟨n, List.mem_append_left _ inside, rfl⟩⟩
    · rw [first.grown.toSame.nodeMax] at below
      exact Or.inr ⟨⟨e, List.mem_append_right _ inside, below⟩,
        ready.later rfl fun n inside => ⟨n, List.mem_append_right _ inside, rfl⟩⟩
  · rcases List.mem_append.mp mem with mem | mem
    · exact (first.settled e mem below inside).later then_.grown then_.above fun k inside => List.mem_append_left _ inside
    · rw [← first.grown.toSame.nodeMax] at below
      rw [← first.above.1] at inside
      exact (then_.settled e mem below inside).later (Grown.refl _) (AllFuller.refl _) fun k inside =>
        List.mem_append_right _ inside

theorem levelSwept {limits : Limits} {treeId level : Nat} (deep : level < 5) {entries : List Entry} {s s' : Sweep}
    (plain : Plain s.tree)
    (swept : entries.foldlM (visit limits treeId level) s = some s') :
    ∃ positions new, Swept limits treeId level s entries s' positions new := by
  induction entries generalizing s with
  | nil =>
    cases swept
    exact ⟨[], [], sweptNil ..⟩
  | cons e rest ih =>
    rw [List.foldlM_cons] at swept
    obtain ⟨middle, visited, later⟩ := Option.bind_eq_some_iff.mp swept
    obtain ⟨positions, new, first⟩ := visitSwept deep plain visited
    obtain ⟨positions', new', then_⟩ := ih (plain.grown first.grown) later
    exact ⟨_, _, first.trans then_⟩

end Dewfall.LodWork
