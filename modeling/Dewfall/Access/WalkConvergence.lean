import Dewfall.Access.RegionCut

/-! A query walks, loads the sub-trees it missed, and walks again. What reading and deserializing a
stored tree gives is a parameter; other requests load trees while a load is awaited. A shutdown during
the query is not treated. -/
namespace Dewfall.WalkConvergence
open General General.Descent TreeArrays RegionWalk RegionCut

variable {R : Type} [LinearOrder R]

abbrev Store := BitVec 32 → Option Tree

/-! ## Loading a tree -/

def resized (flags : List Bool) (n : Nat) : List Bool :=
  if flags.length < n then flags ++ List.replicate (n - flags.length) false else flags

def install (registry : TreeRegistry) (id : BitVec 32) (tree : Tree) : Option TreeRegistry :=
  if registry.data.length ≤ id.toNat then none
  else if treeResident registry id then some registry
  else some { registry with
    data := registry.data.set id.toNat (some tree)
    treeIdInitialized := (resized registry.treeIdInitialized registry.data.length).set id.toNat true }

variable (store : Store)

-- A load of another request ends; its failure is its own.
def finish (registry : TreeRegistry) (id : BitVec 32) : TreeRegistry :=
  ((store id).bind (install registry id)).getD registry

-- `none` when the load fails. The read is awaited, and other loads end meanwhile.
def doLoad (others : List (BitVec 32)) (registry : TreeRegistry) (id : BitVec 32) : Option TreeRegistry :=
  match registry.locations[id.toNat]? with
  | none => none
  | some location =>
    if treeResident registry id then some registry
    else if location.size = 0 then none
    else (store id).bind (install (others.foldl (finish store) registry) id)

def load (others : List (BitVec 32)) (registry : TreeRegistry) (id : BitVec 32) : Option TreeRegistry :=
  if treeResident registry id then some registry else doLoad store others registry id

def loadAll (others : Nat → List (BitVec 32)) : Nat → List (BitVec 32) → TreeRegistry → Option TreeRegistry
  | _, [], registry => some registry
  | k, id :: rest, registry => do
    let registry ← load store (others k) registry id
    loadAll others (k + 1) rest registry

/-! ## co_walk_to_convergence -/

inductive Outcome (R : Type) where
  | converged (out : RegionResult R)
  | loadFailed
  | notConverged

variable (arithmetic : Arithmetic R) (query : RegionQuery R)

def maxRounds : Nat := 64

def walkRounds (others : Nat → Nat → List (BitVec 32)) : Nat → Nat → TreeRegistry → Option (Outcome R)
  | 0, _, _ => some .notConverged
  | rounds + 1, round, registry => do
    let out ← regionWalk arithmetic registry query
    if out.treesToLoad = [] then some (.converged out)
    else match loadAll store (others round) 0 out.treesToLoad registry with
      | none => some .loadFailed
      | some registry => walkRounds others rounds (round + 1) registry

def coWalkToConvergence (others : Nat → Nat → List (BitVec 32)) (registry : TreeRegistry) : Option (Outcome R) :=
  walkRounds store arithmetic query others maxRounds 0 registry

/-! ## The registry of a dataset -/

-- The registry as it is opened: a location for every tree and data for none.
structure Opened (registry : TreeRegistry) : Prop where
  data : registry.data = List.replicate registry.locations.length none
  flags : registry.treeIdInitialized = List.replicate registry.locations.length false

def allResident (registry : TreeRegistry) : TreeRegistry :=
  { registry with
    data := (List.range registry.data.length).map fun i => store (BitVec.ofNat 32 i)
    treeIdInitialized := (List.range registry.data.length).map fun i => (store (BitVec.ofNat 32 i)).isSome }

-- The trees that a walk may ask for.
def Named (registry : TreeRegistry) (id : BitVec 32) : Prop :=
  registry.locations ≠ [] ∧ (id = registry.root ∨ ∃ k tree, store k = some tree ∧ id ∈ tree.subTrees)

def Loads (registry : TreeRegistry) (id : BitVec 32) : Prop :=
  (∃ location, registry.locations[id.toNat]? = some location ∧ location.size ≠ 0) ∧ (store id).isSome

variable {store} {arithmetic query} {fresh registry after : TreeRegistry} {id : BitVec 32}

-- What every registry keeps while trees are loaded.
structure Kept (store : Store) (fresh registry : TreeRegistry) : Prop where
  root : registry.root = fresh.root
  config : registry.treeConfig = fresh.treeConfig
  locations : registry.locations = fresh.locations
  length : registry.data.length = fresh.locations.length
  flags : registry.treeIdInitialized.length = fresh.locations.length
  held : ∀ id, treeResident registry id = true → ∃ tree, store id = some tree ∧ registry.data[id.toNat]? = some (some tree)
  trees : ∀ tree, some tree ∈ registry.data → ∃ id, store id = some tree

theorem keptFilled (kept : Kept store fresh registry) (filled : registry.data ≠ []) : fresh.locations ≠ [] := by
  intro none_
  have length := kept.length
  rw [none_, List.length_nil, List.length_eq_zero_iff] at length
  exact filled length

def Grows (registry after : TreeRegistry) : Prop := ∀ id, treeResident registry id = true → treeResident after id = true

theorem openedKept (opened : Opened fresh) : Kept store fresh fresh := by
  refine ⟨rfl, rfl, rfl, by rw [opened.data, List.length_replicate], by rw [opened.flags, List.length_replicate],
    fun id resident => ?_, fun tree mem => ?_⟩
  · rw [treeResident, opened.flags, List.getElem?_replicate] at resident
    split at resident
    · cases resident
    · cases resident
  · rw [opened.data] at mem
    cases (List.mem_replicate.mp mem).2

theorem installed {tree : Tree} (kept : Kept store fresh registry) (stored : store id = some tree)
    (done : install registry id tree = some after) :
    Kept store fresh after ∧ Grows registry after ∧ treeResident after id = true := by
  unfold install at done
  split at done
  · cases done
  rename_i inside
  split at done
  · rename_i resident
    cases done
    exact ⟨kept, fun _ there => there, resident⟩
  rename_i absent
  cases done
  have flags : resized registry.treeIdInitialized registry.data.length = registry.treeIdInitialized := by
    rw [resized, if_neg (by rw [kept.length, kept.flags]; omega)]
  have place : ∀ k : BitVec 32, treeResident { registry with
      data := registry.data.set id.toNat (some tree)
      treeIdInitialized := (resized registry.treeIdInitialized registry.data.length).set id.toNat true } k =
      (decide (k = id) || treeResident registry k) := by
    intro k
    simp only [treeResident, flags, List.getElem?_set]
    by_cases same : k = id
    · have room : id.toNat < registry.treeIdInitialized.length := by
        rw [kept.flags, ← kept.length]
        omega
      simp [same, room]
    · have apart : ¬id.toNat = k.toNat := fun there => same (BitVec.eq_of_toNat_eq there.symm)
      simp [same, apart]
  refine ⟨⟨kept.root, kept.config, kept.locations, ?_, ?_, fun k resident => ?_, fun sub mem => ?_⟩, fun k there => ?_, ?_⟩
  · rw [List.length_set]
    exact kept.length
  · rw [List.length_set, flags]
    exact kept.flags
  · rw [place] at resident
    rw [List.getElem?_set]
    by_cases same : k = id
    · rw [same, if_pos rfl, if_pos (by omega)]
      exact ⟨tree, stored, rfl⟩
    · have apart : ¬id.toNat = k.toNat := fun there => same (BitVec.eq_of_toNat_eq there.symm)
      rw [if_neg apart]
      exact kept.held k (by simpa [same] using resident)
  · rcases List.mem_or_eq_of_mem_set mem with old | new
    · exact kept.trees sub old
    · exact ⟨id, by rw [stored, new]⟩
  · rw [place, there, Bool.or_true]
  · rw [place]
    simp

theorem finished (kept : Kept store fresh registry) (id : BitVec 32) :
    Kept store fresh (finish store registry id) ∧ Grows registry (finish store registry id) := by
  unfold finish
  cases stored : store id with
  | none => exact ⟨kept, fun _ there => there⟩
  | some tree =>
    cases done : install registry id tree with
    | none =>
      rw [Option.bind_some, done]
      exact ⟨kept, fun _ there => there⟩
    | some after =>
      obtain ⟨next, grows, _⟩ := installed kept stored done
      rw [Option.bind_some, done]
      exact ⟨next, grows⟩

theorem finishedAll (kept : Kept store fresh registry) (ids : List (BitVec 32)) :
    Kept store fresh (ids.foldl (finish store) registry) ∧ Grows registry (ids.foldl (finish store) registry) := by
  induction ids generalizing registry with
  | nil => exact ⟨kept, fun _ there => there⟩
  | cons id rest ih =>
    obtain ⟨next, grows⟩ := finished kept id
    obtain ⟨last, more⟩ := ih next
    exact ⟨last, fun k there => more k (grows k there)⟩

theorem loaded (kept : Kept store fresh registry) (loads : Loads store fresh id) (others : List (BitVec 32)) :
    ∃ after, load store others registry id = some after ∧ Kept store fresh after ∧ Grows registry after ∧
      treeResident after id = true := by
  obtain ⟨⟨location, here, size⟩, stored⟩ := loads
  obtain ⟨tree, stored⟩ := Option.isSome_iff_exists.mp stored
  unfold load doLoad
  by_cases resident : treeResident registry id = true
  · rw [if_pos resident]
    exact ⟨registry, rfl, kept, fun _ there => there, resident⟩
  obtain ⟨met, grows⟩ := finishedAll kept others
  have inside : id.toNat < fresh.locations.length := (List.getElem?_eq_some_iff.mp here).1
  have done : ∃ after, install (others.foldl (finish store) registry) id tree = some after := by
    unfold install
    rw [if_neg (by rw [met.length]; omega)]
    split
    · exact ⟨_, rfl⟩
    · exact ⟨_, rfl⟩
  obtain ⟨after, done⟩ := done
  obtain ⟨next, more, now⟩ := installed met stored done
  rw [if_neg resident, kept.locations, here]
  dsimp only
  rw [if_neg resident, if_neg size, stored, Option.bind_some]
  exact ⟨after, done, next, fun k there => more k (grows k there), now⟩

theorem loadedAll {ids : List (BitVec 32)} (kept : Kept store fresh registry) (loads : ∀ id ∈ ids, Loads store fresh id)
    (others : Nat → List (BitVec 32)) (k : Nat) :
    ∃ after, loadAll store others k ids registry = some after ∧ Kept store fresh after ∧ Grows registry after ∧
      ∀ id ∈ ids, treeResident after id = true := by
  induction ids generalizing registry k with
  | nil => exact ⟨registry, rfl, kept, fun _ there => there, fun _ mem => by cases mem⟩
  | cons id rest ih =>
    obtain ⟨next, done, met, grows, here⟩ := loaded kept (loads id List.mem_cons_self) (others k)
    obtain ⟨after, rested, last, more, there⟩ := ih met (fun other mem => loads other (List.mem_cons_of_mem _ mem)) (k + 1)
    refine ⟨after, ?_, last, fun k there => more k (grows k there), fun other mem => ?_⟩
    · rw [loadAll, done]
      exact rested
    · rcases List.mem_cons.mp mem with rfl | later
      · exact more other here
      · exact there other later

/-! ## The walk of what is resident -/

theorem keptLaid (kept : Kept store fresh registry) (laid : ∀ id tree, store id = some tree → LaidTree tree) :
    Laid registry := by
  refine ⟨fun tree mem => ?_, fun id resident => ?_⟩
  · obtain ⟨id, stored⟩ := kept.trees tree mem
    exact laid id tree stored
  · obtain ⟨tree, _, held⟩ := kept.held id resident
    exact (List.getElem?_eq_some_iff.mp held).1

theorem wholeResident (opened : Opened fresh) : treeResident (allResident store fresh) id =
    decide (id.toNat < fresh.locations.length ∧ (store id).isSome = true) := by
  have same : BitVec.ofNat 32 id.toNat = id := BitVec.ofNat_toNat _ _
  rw [treeResident, allResident, opened.data, List.length_replicate, List.getElem?_map]
  by_cases inside : id.toNat < fresh.locations.length
  · rw [List.getElem?_range inside]
    simp [inside, same]
  · rw [List.getElem?_eq_none (by simpa using inside)]
    simp [inside]

theorem wholeAt (opened : Opened fresh) : treeAt (allResident store fresh) id =
    if id.toNat < fresh.locations.length then store id else none := by
  have same : BitVec.ofNat 32 id.toNat = id := BitVec.ofNat_toNat _ _
  rw [treeAt, wholeResident opened]
  by_cases inside : id.toNat < fresh.locations.length
  · rw [if_pos inside, allResident, opened.data, List.length_replicate, List.getElem?_map, List.getElem?_range inside]
    cases stored : store id with
    | none => simp
    | some tree => simp [inside, same, stored]
  · simp [inside]

theorem keptAt (opened : Opened fresh) (kept : Kept store fresh registry) (resident : treeResident registry id = true) :
    treeAt registry id = treeAt (allResident store fresh) id ∧ treeResident (allResident store fresh) id = true := by
  obtain ⟨tree, stored, held⟩ := kept.held id resident
  have inside : id.toNat < fresh.locations.length := kept.length ▸ (List.getElem?_eq_some_iff.mp held).1
  rw [wholeAt opened, wholeResident opened, treeAt, if_pos resident, held, if_pos inside, stored]
  simp [inside]

theorem emitSame {whole : TreeRegistry} (config : registry.treeConfig = whole.treeConfig) :
    emitNode arithmetic registry query = emitNode arithmetic whole query := by
  funext level p
  unfold emitNode
  rw [config]

theorem walkAlike {whole : TreeRegistry} (config : registry.treeConfig = whole.treeConfig) :
    Alike (walkOf registry arithmetic query) (walkOf whole arithmetic query) := by
  refine ⟨rfl, ?_⟩
  funext depth p
  simp only [walkOf, unitsAt, emitSame config]

theorem missingSome {depth : Nat} {p : PendingNode R} {i : Nat} :
    missing registry arithmetic query depth p i = some id ↔
      meets query (aabbChild arithmetic p.cell i) = true ∧ levelOf depth = 4 ∧ subTreeAt p.tree p.skip i = some id ∧
        treeResident registry id = false := by
  rw [missing]
  split
  · rename_i both
    rw [Option.filter_eq_some_iff, Bool.not_eq_true']
    simp [both]
  · rename_i other
    simp only [reduceCtorEq, false_iff, not_and]
    exact fun met last => absurd ⟨met, last⟩ other

theorem subTreesNone {depth : Nat} {p : PendingNode R} (none_ : subTreesOf registry arithmetic query depth p = []) (i : Nat)
    (octant : i < 8) : missing registry arithmetic query depth p i = none := by
  rw [subTreesOf, List.filterMap_eq_nil_iff] at none_
  exact none_ i (List.mem_range.mpr octant)

-- Where nothing is missing, the walk branches as on the whole registry.
theorem branchesSame (opened : Opened fresh) (kept : Kept store fresh registry) {depth : Nat} {p : PendingNode R}
    (none_ : subTreesOf registry arithmetic query depth p = []) :
    branches registry arithmetic query depth p = branches (allResident store fresh) arithmetic query depth p := by
  refine List.filterMap_congr fun i mem => ?_
  have here := subTreesNone none_ i (List.mem_range.mp mem)
  rw [branch, branch]
  split
  · rename_i met
    refine congrArg (Option.map _) ?_
    rw [childAt, childAt]
    split
    · rename_i last
      refine congrArg (Option.map _) ?_
      cases sub : subTreeAt p.tree p.skip i with
      | none => rfl
      | some id =>
        have resident : treeResident registry id = true := by
          by_contra absent
          rw [missingSome.mpr ⟨met, last, sub, Bool.eq_false_iff.mpr absent⟩] at here
          cases here
        exact (keptAt opened kept resident).1
    · rfl
  · rfl

theorem subTreesKept (opened : Opened fresh) (kept : Kept store fresh registry) {depth : Nat} {p : PendingNode R}
    (none_ : subTreesOf registry arithmetic query depth p = []) :
    subTreesOf (allResident store fresh) arithmetic query depth p = [] := by
  rw [subTreesOf, List.filterMap_eq_nil_iff]
  intro i mem
  cases some_ : missing (allResident store fresh) arithmetic query depth p i with
  | none => rfl
  | some id =>
    obtain ⟨met, last, sub, absent⟩ := missingSome.mp some_
    have here := subTreesNone none_ i (List.mem_range.mp mem)
    cases resident : treeResident registry id with
    | false =>
      rw [missingSome.mpr ⟨met, last, sub, resident⟩] at here
      cases here
    | true =>
      rw [(keptAt opened kept resident).2] at absent
      cases absent

theorem openedInside (laid : Laid registry) {levels depth total : Nat} {current : List (Spot (PendingNode R))}
    (inside : AllInside registry depth current) {x : Spot (PendingNode R)}
    (mem : x ∈ (descend (walkOf registry arithmetic query) levels total current).opened) :
    some x.2.tree ∈ registry.data := by
  induction levels generalizing depth total current with
  | zero => cases mem
  | succ levels ih =>
    rcases List.mem_append.mp mem with here | below
    · exact (inside x (sweepOpened here).1).2.held
    · exact ih (extendInside laid inside) below

/-! ## One round -/

def openedBy (arithmetic : Arithmetic R) (query : RegionQuery R) (registry : TreeRegistry) (root : Tree) :
    List (Spot (PendingNode R)) :=
  (descend (walkOf registry arithmetic query) maxDepth 0 (startAt registry arithmetic query root)).opened

-- The root is resident, and of the nodes that the walk of the whole registry opens down to a depth none
-- leads to a tree that is not.
def Agreed (store : Store) (arithmetic : Arithmetic R) (query : RegionQuery R) (fresh registry : TreeRegistry)
    (m : Nat) : Prop :=
  0 < m → treeResident registry fresh.root = true ∧ ∀ root, store fresh.root = some root →
    ∀ x ∈ openedBy arithmetic query (allResident store fresh) root, x.1.length + 1 < m →
      subTreesOf registry arithmetic query x.1.length x.2 = []

-- What loading the trees that a round missed leads to.
def Advances (store : Store) (arithmetic : Arithmetic R) (query : RegionQuery R) (fresh registry : TreeRegistry)
    (missed : List (BitVec 32)) : Prop :=
  ∀ m, Agreed store arithmetic query fresh registry m → m < maxDepth + 1 ∧ ∀ after, Kept store fresh after →
    Grows registry after → (∀ id ∈ missed, treeResident after id = true) → Agreed store arithmetic query fresh after (m + 1)

structure Round (store : Store) (arithmetic : Arithmetic R) (query : RegionQuery R) (fresh registry : TreeRegistry)
    (out : RegionResult R) : Prop where
  named : ∀ id ∈ out.treesToLoad, Named store fresh id
  whole : out.treesToLoad = [] → regionWalk arithmetic (allResident store fresh) query = some out
  advances : out.treesToLoad ≠ [] → Advances store arithmetic query fresh registry out.treesToLoad

theorem startSame {whole : TreeRegistry} (config : registry.treeConfig = whole.treeConfig) (root : Tree) :
    startAt registry arithmetic query root = startAt whole arithmetic query root := by
  rw [startAt, startAt, rootNode, rootNode, rootCell, rootCell, config]

theorem startInside (held : some root ∈ registry.data) (laid : Laid registry) :
    AllInside registry 0 (startAt registry arithmetic query root) := by
  intro x mem
  cases List.mem_singleton.mp mem
  exact ⟨rfl, rootInside laid held rfl⟩

theorem subTreesNamed {root : Tree} (kept : Kept store fresh registry) (laid : Laid registry)
    (held : some root ∈ registry.data) {x : Spot (PendingNode R)} (mem : x ∈ openedBy arithmetic query registry root)
    (missed : id ∈ subTreesOf registry arithmetic query x.1.length x.2) : Named store fresh id := by
  obtain ⟨i, _, some_⟩ := List.mem_filterMap.mp missed
  obtain ⟨_, _, sub, _⟩ := missingSome.mp some_
  obtain ⟨k, stored⟩ := kept.trees _ (openedInside laid (startInside held laid) mem)
  rw [subTreeAt] at sub
  obtain ⟨child, _, there⟩ := Option.bind_eq_some_iff.mp sub
  exact ⟨keptFilled kept (List.ne_nil_of_mem held), Or.inr ⟨k, _, stored, atMem there⟩⟩

theorem openedShort {root : Tree} {x : Spot (PendingNode R)} (mem : x ∈ openedBy arithmetic query registry root) :
    x.1.length < maxDepth := by
  have lengths : ∀ y ∈ startAt registry arithmetic query root, y.1.length = 0 := by
    intro y mem
    cases List.mem_singleton.mp mem
    rfl
  have short := openedDepth lengths mem
  omega

theorem advanced {root : Tree} (opened : Opened fresh) (kept : Kept store fresh registry)
    (resident : treeResident registry fresh.root = true) (stored : store fresh.root = some root)
    (missed : ∃ x ∈ openedBy arithmetic query registry root, subTreesOf registry arithmetic query x.1.length x.2 ≠ []) :
    Advances store arithmetic query fresh registry
      ((openedBy arithmetic query registry root).flatMap fun x => subTreesOf registry arithmetic query x.1.length x.2) := by
  intro m agreed
  have config : registry.treeConfig = (allResident store fresh).treeConfig := kept.config
  have start : startAt registry arithmetic query root = startAt (allResident store fresh) arithmetic query root :=
    startSame config root
  have alike : Alike (walkOf registry arithmetic query) (walkOf (allResident store fresh) arithmetic query) :=
    walkAlike config
  have lengths : ∀ y ∈ startAt (allResident store fresh) arithmetic query root, y.1.length = 0 := by
    intro y mem
    cases List.mem_singleton.mp mem
    rfl
  have sooner : ∀ x ∈ openedBy arithmetic query (allResident store fresh) root, x.1.length + 1 < m →
      branches registry arithmetic query x.1.length x.2 = branches (allResident store fresh) arithmetic query x.1.length x.2 := by
    intro x mem near
    exact branchesSame opened kept ((agreed (by omega)).2 root stored x mem near)
  have reached : ∀ x ∈ openedBy arithmetic query (allResident store fresh) root, x.1.length < m →
      x ∈ openedBy arithmetic query registry root := by
    intro x mem near
    rw [openedBy, start]
    exact openedAlike alike lengths (fun y mem close => sooner y mem (by omega)) mem (show x.1.length ≤ m - 1 by omega)
  refine ⟨?_, fun after next grows loaded => ?_⟩
  · by_contra deep
    have same : descend (walkOf (allResident store fresh) arithmetic query) maxDepth 0
        (startAt (allResident store fresh) arithmetic query root) =
        descend (walkOf registry arithmetic query) maxDepth 0 (startAt (allResident store fresh) arithmetic query root) := by
      refine descendAlike ⟨alike.opens.symm, alike.weight.symm⟩ fun x mem => ?_
      have short := openedShort mem
      exact (sooner x mem (by omega)).symm
    obtain ⟨x, mem, some_⟩ := missed
    rw [openedBy, start, ← same] at mem
    have short := openedShort mem
    exact some_ ((agreed (by omega)).2 root stored x mem (by omega))
  · intro _
    refine ⟨grows _ resident, fun root' stored' x mem near => ?_⟩
    cases stored.symm.trans stored'
    rw [subTreesOf, List.filterMap_eq_nil_iff]
    intro i octant
    cases some_ : missing after arithmetic query x.1.length x.2 i with
    | none => rfl
    | some id =>
      obtain ⟨met, last, sub, absent⟩ := missingSome.mp some_
      have before : treeResident registry id = false := by
        by_contra there
        rw [grows id (Bool.of_not_eq_false there)] at absent
        cases absent
      have asked : id ∈ subTreesOf registry arithmetic query x.1.length x.2 :=
        List.mem_filterMap.mpr ⟨i, octant, missingSome.mpr ⟨met, last, sub, before⟩⟩
      have now := loaded id (List.mem_flatMap.mpr ⟨x, reached x mem (by omega), asked⟩)
      rw [now] at absent
      cases absent

theorem sameResult (opened : Opened fresh) (kept : Kept store fresh registry) {root : Tree} {out out' : RegionResult R}
    (nothing : ∀ x ∈ openedBy arithmetic query registry root, subTreesOf registry arithmetic query x.1.length x.2 = [])
    (adds : Adds registry arithmetic query ⟨[], [], 0⟩
      (descend (walkOf registry arithmetic query) maxDepth 0 (startAt registry arithmetic query root)) out)
    (adds' : Adds (allResident store fresh) arithmetic query ⟨[], [], 0⟩
      (descend (walkOf (allResident store fresh) arithmetic query) maxDepth 0
        (startAt (allResident store fresh) arithmetic query root)) out') : out' = out := by
  have config : registry.treeConfig = (allResident store fresh).treeConfig := kept.config
  have alike : Alike (walkOf registry arithmetic query) (walkOf (allResident store fresh) arithmetic query) :=
    walkAlike config
  have trails : descend (walkOf registry arithmetic query) maxDepth 0 (startAt registry arithmetic query root) =
      descend (walkOf (allResident store fresh) arithmetic query) maxDepth 0 (startAt registry arithmetic query root) :=
    descendAlike alike fun x mem => branchesSame opened kept (nothing x mem)
  rw [← startSame config root, ← trails] at adds'
  have units : unitsAt registry arithmetic query = unitsAt (allResident store fresh) arithmetic query := by
    funext depth p
    rw [unitsAt, unitsAt, emitSame config]
  have nodes : out'.nodes = out.nodes := by rw [adds'.nodes, adds.nodes, units]
  have total : out'.totalPoints = out.totalPoints := by rw [adds'.total, adds.total, sumAlike alike]
  have loads : out'.treesToLoad = out.treesToLoad := by
    rw [adds'.loads, adds.loads]
    refine congrArg _ (List.flatMap_congr fun x mem => ?_)
    rw [nothing x mem, subTreesKept opened kept (nothing x mem)]
  obtain ⟨_, _, _⟩ := out
  obtain ⟨_, _, _⟩ := out'
  cases nodes
  cases total
  cases loads
  rfl

theorem rootRound {root : Tree} (opened : Opened fresh) (laid : ∀ id tree, store id = some tree → LaidTree tree)
    (kept : Kept store fresh registry) (resident : treeResident registry fresh.root = true)
    (stored : store fresh.root = some root) (held : some root ∈ registry.data)
    (held' : some root ∈ (allResident store fresh).data)
    (whole : regionWalk arithmetic (allResident store fresh) query = walkRoot arithmetic (allResident store fresh) query root) :
    ∃ out, walkRoot arithmetic registry query root = some out ∧ Round store arithmetic query fresh registry out := by
  have config : registry.treeConfig = (allResident store fresh).treeConfig := kept.config
  have good := keptLaid kept laid
  have good' : Laid (allResident store fresh) := by
    refine ⟨fun tree mem => ?_, fun id here => ?_⟩
    · obtain ⟨i, _, there⟩ := List.mem_map.mp mem
      exact laid _ tree there
    · rw [wholeResident opened, decide_eq_true_iff] at here
      simpa [allResident, opened.data] using here.1
  have nothing : walkRoot arithmetic (allResident store fresh) query root = some ⟨[], [], 0⟩ →
      Round store arithmetic query fresh registry ⟨[], [], 0⟩ := by
    intro none_
    refine ⟨fun id mem => ?_, fun _ => whole.trans none_, fun some_ => absurd rfl some_⟩
    cases mem
  have cell : rootCell arithmetic registry root = rootCell arithmetic (allResident store fresh) root := by
    rw [rootCell, rootCell, config]
  unfold walkRoot at nothing whole ⊢
  rw [cell]
  split
  · rename_i empty
    rw [empty] at nothing
    exact ⟨_, rfl, nothing rfl⟩
  · rename_i collection rest levels
    rw [levels] at nothing whole
    dsimp only at nothing whole
    split
    · rename_i none_
      rw [if_pos none_] at nothing
      exact ⟨_, rfl, nothing rfl⟩
    rename_i units
    rw [if_neg units] at nothing whole
    split
    · rename_i outside
      rw [if_pos outside] at nothing
      exact ⟨_, rfl, nothing rfl⟩
    rename_i inside
    rw [if_neg inside] at whole
    have levels : ∀ {whole : TreeRegistry}, Laid whole → some root ∈ whole.data → ∃ out,
        walkLevels arithmetic whole query maxDepth 0 ⟨[], [], 0⟩ [rootNode arithmetic whole query root] = some out ∧
          Adds whole arithmetic query ⟨[], [], 0⟩
            (descend (walkOf whole arithmetic query) maxDepth 0 (startAt whole arithmetic query root)) out :=
      fun good held => walkLevelsSpec good (startInside held good) ⟨[], [], 0⟩
    obtain ⟨out, walked, adds⟩ := levels good held
    obtain ⟨out', walked', adds'⟩ := levels good' held'
    have loads : out.treesToLoad = (openedBy arithmetic query registry root).flatMap fun x =>
        subTreesOf registry arithmetic query x.1.length x.2 := adds.loads
    refine ⟨out, walked, fun id mem => ?_, fun none_ => ?_, fun some_ => ?_⟩
    · rw [loads] at mem
      obtain ⟨x, there, missed⟩ := List.mem_flatMap.mp mem
      exact subTreesNamed kept good held there missed
    · rw [loads, List.flatMap_eq_nil_iff] at none_
      have result := sameResult opened kept none_ adds adds'
      rw [whole, ← result]
      exact walked'
    · rw [loads] at some_ ⊢
      refine advanced opened kept resident stored ?_
      by_contra none_
      refine some_ (List.flatMap_eq_nil_iff.mpr fun x mem => ?_)
      by_contra more
      exact none_ ⟨x, mem, more⟩

theorem roundWalked (opened : Opened fresh) (laid : ∀ id tree, store id = some tree → LaidTree tree)
    (kept : Kept store fresh registry) :
    ∃ out, regionWalk arithmetic registry query = some out ∧ Round store arithmetic query fresh registry out := by
  have size : (allResident store fresh).data.length = fresh.locations.length := by simp [allResident, opened.data]
  unfold regionWalk
  split
  · rename_i empty
    have none_ : (allResident store fresh).data.isEmpty = true := by
      rw [List.isEmpty_iff_length_eq_zero] at empty ⊢
      rw [size, ← kept.length, empty]
    refine ⟨_, rfl, fun id mem => ?_, fun _ => ?_, fun some_ => absurd rfl some_⟩
    · cases mem
    · rw [regionWalk, if_pos none_]
  rename_i filled
  split
  · rename_i absent
    refine ⟨_, rfl, fun id mem => ?_, fun none_ => absurd none_ (List.cons_ne_nil _ _), fun _ m agreed => ?_⟩
    · have some_ : registry.data ≠ [] := fun none_ => filled (List.isEmpty_iff.mpr none_)
      exact ⟨keptFilled kept some_, Or.inl ((List.mem_singleton.mp mem).trans kept.root)⟩
    · rw [kept.root] at absent
      have zero : m = 0 := by
        rcases Nat.eq_zero_or_pos m with zero | pos
        · exact zero
        · rw [(agreed pos).1] at absent
          cases absent
      subst zero
      refine ⟨by decide, fun after next grows loaded _ => ⟨?_, fun root stored x mem near => ?_⟩⟩
      · exact loaded _ (by rw [kept.root]; exact List.mem_singleton_self _)
      · omega
  rename_i resident
  rw [Bool.not_eq_false, kept.root] at resident
  obtain ⟨root, stored, held⟩ := kept.held _ resident
  obtain ⟨same, there⟩ := keptAt opened kept resident
  have whole : (allResident store fresh).data[fresh.root.toNat]? = some (some root) := by
    have inside : fresh.root.toNat < fresh.locations.length := kept.length ▸ (List.getElem?_eq_some_iff.mp held).1
    have back : BitVec.ofNat 32 fresh.root.toNat = fresh.root := BitVec.ofNat_toNat _ _
    rw [allResident, opened.data, List.length_replicate, List.getElem?_map, List.getElem?_range inside, Option.map_some,
      back, stored]
  rw [kept.root, held]
  refine rootRound opened laid kept resident stored (List.mem_of_getElem? held) (List.mem_of_getElem? whole) ?_
  have filled' : ¬(allResident store fresh).data.isEmpty = true := by
    rw [List.isEmpty_iff_length_eq_zero] at filled ⊢
    rw [size, ← kept.length]
    exact filled
  have root_ : (allResident store fresh).root = fresh.root := rfl
  rw [regionWalk, if_neg filled', root_, if_neg (by rw [there]; decide), whole]

/-! ## All rounds -/

theorem roundsConverge (opened : Opened fresh) (laid : ∀ id tree, store id = some tree → LaidTree tree)
    (loads : ∀ id, Named store fresh id → Loads store fresh id) (others : Nat → Nat → List (BitVec 32))
    {rounds m : Nat} (round : Nat) (kept : Kept store fresh registry)
    (agreed : Agreed store arithmetic query fresh registry m) (enough : maxDepth + 1 < rounds + m) (shallow : m ≤ maxDepth + 1) :
    ∃ out, walkRounds store arithmetic query others rounds round registry = some (.converged out) ∧
      regionWalk arithmetic (allResident store fresh) query = some out := by
  induction rounds generalizing m round registry with
  | zero => omega
  | succ rounds ih =>
    obtain ⟨out, walked, step⟩ := @roundWalked _ _ _ arithmetic query _ _ opened laid kept
    rw [walkRounds, walked, Option.bind_eq_bind, Option.bind_some]
    by_cases done : out.treesToLoad = []
    · rw [if_pos done]
      exact ⟨out, rfl, step.whole done⟩
    · obtain ⟨near, next⟩ := step.advances done m agreed
      obtain ⟨after, loaded, kept', grows, there⟩ :=
        loadedAll kept (fun id mem => loads id (step.named id mem)) (others round) 0
      rw [if_neg done, loaded]
      exact ih (round + 1) kept' (next after kept' grows there) (by omega) (by omega)

theorem walkConverges (opened : Opened fresh) (laid : ∀ id tree, store id = some tree → LaidTree tree)
    (loads : ∀ id, Named store fresh id → Loads store fresh id) (resident : List (BitVec 32))
    (others : Nat → Nat → List (BitVec 32)) :
    ∃ out, coWalkToConvergence store arithmetic query others (resident.foldl (finish store) fresh) =
        some (.converged out) ∧
      regionWalk arithmetic (allResident store fresh) query = some out := by
  have kept : Kept store fresh (resident.foldl (finish store) fresh) := (finishedAll (openedKept opened) resident).1
  refine roundsConverge opened laid loads others 0 kept (fun pos => absurd pos (Nat.lt_irrefl 0)) ?_ (Nat.zero_le _)
  decide

/-! A tree with a sub-tree below it, neither resident; another request asks for the sub-tree too. -/

def twoTrees : Store
  | 0 => some (chainTree 0)
  | 1 => some twoLeaves
  | _ => none

def twoTreesRegistry : TreeRegistry :=
  { twoLeavesRegistry with
    data := [none, none]
    locations := [⟨0, 8, 64⟩, ⟨0, 8, 128⟩]
    treeIdInitialized := [false, false] }

theorem twoTreesStored {id : BitVec 32} {tree : Tree} (stored : twoTrees id = some tree) :
    tree = chainTree 0 ∨ tree = twoLeaves := by
  unfold twoTrees at stored
  split at stored
  · exact Or.inl (Option.some.inj stored).symm
  · exact Or.inr (Option.some.inj stored).symm
  · cases stored

theorem twoTreesLaid (id : BitVec 32) (tree : Tree) (stored : twoTrees id = some tree) : LaidTree tree := by
  rcases twoTreesStored stored with rfl | rfl
  · exact chainLaid.trees _ (List.mem_map.mpr ⟨0, by decide, rfl⟩)
  · exact twoLeavesLaid.trees _ (List.mem_singleton.mpr rfl)

theorem twoTreesLoad (id : BitVec 32) (named : Named twoTrees twoTreesRegistry id) : Loads twoTrees twoTreesRegistry id := by
  have either : id = 0 ∨ id = 1 := by
    rcases named.2 with root | ⟨k, tree, stored, mem⟩
    · exact Or.inl root
    · rcases twoTreesStored stored with rfl | rfl
      · exact Or.inr (List.mem_singleton.mp mem)
      · cases mem
  rcases either with rfl | rfl
  · exact ⟨⟨_, rfl, by decide⟩, rfl⟩
  · exact ⟨⟨_, rfl, by decide⟩, rfl⟩

theorem twoTreesConverge : ∃ out,
    coWalkToConvergence twoTrees coarse onePoint (fun _ _ => [1]) twoTreesRegistry = some (.converged out) ∧
      regionWalk coarse (allResident twoTrees twoTreesRegistry) onePoint = some out :=
  walkConverges ⟨rfl, rfl⟩ twoTreesLaid twoTreesLoad [] fun _ _ => [1]

end Dewfall.WalkConvergence
