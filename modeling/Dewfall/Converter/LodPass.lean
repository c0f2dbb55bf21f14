import Dewfall.Converter.LodGather
import Dewfall.General.Transition

/-! The workers of a pass: batches of trees of one magnitude, each tree going up its own levels, while the pool's
workers and the storage loop's completions run beside the loop of the trees. A worker writes whatever it makes; a
wake may stand for several. What else the loop of the trees does (adding points, collapsing leaves, checkpoints) is
any change that keeps the arrays in order and leaves alone the trees below the last target, which lies past them. -/
namespace Dewfall.LodPass
open General.Transition StorageMap PointSplitter TreeReparent LodWork LodGather

structure StorageInfo where
  attributesId : Nat
  locations : List Location
  retainHot : Bool

abbrev ChildStorageInfo := InputId → Option StorageInfo

structure Generated where
  pointCount : Nat
  min : Nat
  max : Nat
  attributesId : Nat
  locations : List Location

-- `tree_level`, `tree_in_flight` and `tree_completed` of one tree; a retired tree has no level.
structure Run where
  work : TreeWork
  level : Option Nat
  inFlight : Nat
  completed : Nat
  childStorageInfo : Nat → ChildStorageInfo
  generated : Nat → Generated

structure Batch where
  serial : Nat
  runs : List Run
  active : Nat
  started : Bool

structure Worker where
  serial : Nat
  tree : Nat
  node : Nat
  deriving DecidableEq

-- `add_worker_done`: the number in flight is read before the count goes up, the wake comes after.
inductive Storage where
  | idle
  | counting (serial tree inFlight : Nat)
  | posting

inductive Loop where
  | idle
  | sweep (tree : Nat)
  | enqueue (tree node : Nat)

-- What has happened; nothing reads it.
inductive Event where
  | queued (serial : Nat) (works : List TreeWork)
  | start (serial tree level node : Nat)
  | written (serial tree level node : Nat)
  | publish (serial tree level : Nat)
  | done

structure State where
  registry : Registry
  root : Nat
  lodIds : Nat
  lodComplete : Nat
  batches : List Batch
  nextSerial : Nat
  workers : List Worker
  storage : Storage
  loop : Loop
  wakes : Nat
  log : List Event

/-! ## What a worker reads and what is published -/

-- A unit that the map lacks is an exception.
def addInfo (r : Registry) (tree : Nat) (known : ChildStorageInfo) (u : Subset) : Option ChildStorageInfo :=
  let old := (known u.inputId).getD ⟨0, [], true⟩
  if old.locations = [] then
    match r.get tree with
    | none => none
    | some t => (t.storageMap.map u.inputId).map fun value =>
        Function.update known u.inputId (some ⟨value.attributesId, value.storage, u.count ≠ 0⟩)
  else some (if u.count ≠ 0 then Function.update known u.inputId (some { old with retainHot := true }) else known)

def getStorageInfo (r : Registry) (n : Node) : Option ChildStorageInfo :=
  n.childData.foldlM (fun known c => c.data.data.foldlM (addInfo r c.tree) known) fun _ => none

-- The names of a level ascend, so one cursor finds them all.
def adjustNode (level : Nat) (generated : Nat → Generated) (s : Tree × Nat) (n : Node × Nat) : Option (Tree × Nat) :=
  let nodeIds := (s.1.levels level).nodeIds
  let index := s.2 + ((nodeIds.drop s.2).takeWhile (· < n.1.id)).length
  match nodeIds[index]?, dataAt s.1 level index with
  | some id, some d =>
    match d.data with
    | [u] =>
      if id = n.1.id then
        let g := generated n.2
        let t := setData s.1 level index
          { d with pointCount := g.pointCount, min := g.min, max := g.max, data := [⟨u.inputId, 0, g.pointCount⟩] }
        some ({ t with storageMap := t.storageMap.addStorage n.1.storageName g.attributesId g.locations }, index)
      else none
    | _ => none
  | _, _ => none

def adjustTreeAfterLod (r : Registry) (run : Run) (level : Nat) : Option Registry :=
  if run.work.nodes level = [] then some r
  else
    match r.get run.work.treeId with
    | none => none
    | some t => ((run.work.nodes level).zipIdx.foldlM (adjustNode level run.generated) ({ t with isDirty := true }, 0)).map
        fun s => r.set run.work.treeId s.1

/-! ## The loop of the trees -/

-- The next level that has nodes.
def descend (nodes : Nat → List Node) : Nat → Option Nat
  | 0 => none
  | level + 1 => if nodes level = [] then descend nodes level else some level

def startBatch (b : Batch) : Batch :=
  { b with
    runs := b.runs.map fun run => { run with level := some 5, inFlight := 0, completed := 0 }
    active := b.runs.length
    started := true }

def setRun (s : State) (b : Batch) (rest : List Batch) (i : Nat) (run : Run) : State :=
  { s with batches := { b with runs := b.runs.set i run } :: rest }

def advanceTree (s : State) (b : Batch) (rest : List Batch) (i : Nat) (run : Run) : Option State :=
  match run.level with
  | none => some { s with loop := .sweep (i + 1) }
  | some level =>
    if 0 < run.inFlight ∧ run.completed < run.inFlight then some { s with loop := .sweep (i + 1) }
    else
      match if 0 < run.inFlight then adjustTreeAfterLod s.registry run level else some s.registry with
      | none => none
      | some registry =>
        let log := if 0 < run.inFlight then s.log ++ [.publish b.serial i level] else s.log
        let s := { s with registry := registry, log := log }
        match descend run.work.nodes level with
        | none =>
          let b := { b with active := b.active - 1 }
          some { setRun s b rest i { run with level := none, inFlight := 0, completed := 0 } with loop := .sweep (i + 1) }
        | some next =>
          let run := { run with level := some next, inFlight := (run.work.nodes next).length, completed := 0 }
          some { setRun s b rest i run with loop := .enqueue i 0 }

def enqueueLod (s : State) (b : Batch) (rest : List Batch) (i k : Nat) (run : Run) (level : Nat) : Option State :=
  match (run.work.nodes level)[k]? with
  | none => some { s with loop := .sweep (i + 1) }
  | some node => (getStorageInfo s.registry node).map fun info =>
      { setRun s b rest i { run with childStorageInfo := Function.update run.childStorageInfo k info } with
        workers := s.workers ++ [⟨b.serial, i, k⟩]
        log := s.log ++ [.start b.serial i level k]
        loop := .enqueue i (k + 1) }

def frontBatch (s : State) : List Batch → State
  | [] => { s with batches := [], loop := .idle, log := s.log ++ [.done] }
  | b :: rest => { s with batches := (if b.started then b else startBatch b) :: rest, loop := .sweep 0 }

def turn (s : State) : Option State :=
  match s.batches with
  | [] => none
  | b :: rest =>
    match s.loop with
    | .idle => none
    | .sweep i =>
      match b.runs[i]? with
      | some run => advanceTree s b rest i run
      | none => if 0 < b.active then some { s with loop := .idle } else some (frontBatch s rest)
    | .enqueue i k =>
      match b.runs[i]? with
      | none => none
      | some run =>
        match run.level with
        | none => none
        | some level => enqueueLod s b rest i k run level

/-! ## The storage loop -/

def withRun (s : State) (serial i : Nat) (f : Run → Run) : Option State :=
  match s.batches with
  | [] => none
  | b :: rest =>
    if b.serial = serial then (b.runs[i]?).map fun run => setRun s b rest i (f run) else none

def runOf (s : State) (i : Nat) : Option Run := s.batches.head?.bind fun b => b.runs[i]?
def inFlightOf (s : State) (i : Nat) : Nat := ((runOf s i).map Run.inFlight).getD 0
def completedOf (s : State) (i : Nat) : Nat := ((runOf s i).map Run.completed).getD 0
def levelOf (s : State) (i : Nat) : Nat := ((runOf s i).bind Run.level).getD 0

def finish (s : State) (w : Worker) (g : Generated) : Option State :=
  (withRun s w.serial w.tree fun run => { run with generated := Function.update run.generated w.node g }).map fun s' =>
    { s' with
      workers := s.workers.erase w
      storage := .counting w.serial w.tree (inFlightOf s w.tree)
      log := s.log ++ [.written w.serial w.tree (levelOf s w.tree) w.node] }

def count (s : State) : Option State :=
  match s.storage with
  | .counting serial i inFlight =>
    (withRun s serial i fun run => { run with completed := run.completed + 1 }).map fun s' =>
      { s' with storage := if completedOf s' i = inFlight then .posting else .idle }
  | _ => none

/-! ## A pass -/

def batchesFrom (level : Nat) (group : List TreeWork) : List TreeWork → List (List TreeWork)
  | [] => if group = [] then [] else [group]
  | w :: rest =>
    if w.magnitude ≠ level then group :: batchesFrom w.magnitude [w] rest else batchesFrom level (group ++ [w]) rest

def lodBatches (sorted : List TreeWork) : List (List TreeWork) :=
  match sorted with
  | [] => []
  | w :: _ => batchesFrom w.magnitude [] sorted

def newRun (w : TreeWork) : Run := ⟨w, none, 0, 0, fun _ _ => none, fun _ => ⟨0, 0, 0, 0, []⟩⟩
def newBatch (serial : Nat) (works : List TreeWork) : Batch := ⟨serial, works.map newRun, 0, false⟩

-- The nodes of the root are handed to a node that no tree has.
def fakeParent (t : Tree) : Node := ⟨t.mortonMin, 0, 0, ⟨0, 0⟩, []⟩

def gather (s : State) (max : Nat) : Option Pass :=
  match s.registry.get s.root with
  | none => none
  | some t => (treeGetWorkItems ⟨max, s.lodComplete⟩ (t.magnitude + 1) ⟨s.registry, s.lodIds, []⟩ s.root (fakeParent t)).map
      Prod.fst

def generateLods (s : State) (max : Nat) (p : Pass) (sorted : List TreeWork) : State :=
  let batches := lodBatches sorted
  { s with
    registry := p.registry
    lodIds := p.lodIds
    lodComplete := max
    batches := s.batches ++ batches.mapIdx fun i works => newBatch (s.nextSerial + i) works
    nextSerial := s.nextSerial + batches.length
    wakes := s.wakes + 1
    log := s.log ++ batches.mapIdx fun i works => .queued (s.nextSerial + i) works }

-- A tree up to its marks and the blobs that it has discarded.
structure Kept (t t' : Tree) : Prop where
  levels : t'.levels = t.levels
  magnitude : t'.magnitude = t.magnitude
  mortonMin : t'.mortonMin = t.mortonMin
  subTrees : t'.subTrees = t.subTrees
  map : t'.storageMap.map = t.storageMap.map

theorem Kept.treeMax {t t' : Tree} (kept : Kept t t') : treeMax t' = treeMax t := by
  simp only [LodGather.treeMax, nodeMaxOf, nodeMinOf, rootEntry, Tree.lod, kept.magnitude, kept.mortonMin]

theorem Kept.item {t t' : Tree} (kept : Kept t t') {level k : Nat} {n : Node} (item : Item t level k n) :
    Item t' level k n := by
  obtain ⟨inner, id, counted, unit⟩ := item
  rw [nodeAt, ← kept.levels] at inner
  rw [dataAt, ← kept.levels] at unit
  rw [← kept.levels] at id counted
  exact ⟨inner, id, counted, unit⟩

def Spared (max : Nat) (r r' : Registry) : Prop :=
  ∀ {id t}, r.get id = some t → treeMax t < max → ∃ t', r'.get id = some t' ∧ Kept t t'

inductive Action where
  -- The order in which the sort leaves trees of one magnitude is any.
  | generate (max : Nat) (sorted : List TreeWork)
  | change (registry : Registry) (root lodIds : Nat)
  | wake (left : Nat)
  | turn
  | finish (w : Worker) (g : Generated)
  | count
  | post

-- The next pass is asked for when the one before has been reported, with a target that is no smaller.
def allowed (s : State) : Action → Prop
  | .generate max sorted => s.batches = [] ∧ s.lodComplete ≤ max ∧ ∃ p, gather s max = some p ∧ p.toLod.Perm sorted ∧
      sorted.Pairwise fun v w => v.magnitude ≤ w.magnitude
  | .change registry _ _ => Spared s.lodComplete s.registry registry ∧ Good registry
  | .wake left => s.loop = .idle ∧ left < s.wakes
  | .turn => s.loop ≠ .idle
  | .finish w _ => w ∈ s.workers ∧ s.storage = .idle
  | .count => ∃ serial i inFlight, s.storage = .counting serial i inFlight
  | .post => s.storage = .posting

def perform (s : State) : Action → Option State
  | .generate max sorted => (gather s max).map fun p => generateLods s max p sorted
  | .change registry root lodIds => some { s with registry := registry, root := root, lodIds := lodIds }
  | .wake left => some (frontBatch { s with wakes := left } s.batches)
  | .turn => turn s
  | .finish w g => finish s w g
  | .count => count s
  | .post => some { s with storage := .idle, wakes := s.wakes + 1 }

/-! ## What a turn can do -/

def Complete (run : Run) : Prop := ¬ (0 < run.inFlight ∧ run.completed < run.inFlight)

-- The level that was worked on is published before the tree goes on.
structure Published (s : State) (serial i : Nat) (run : Run) (level : Nat) (registry : Registry) (log : List Event) : Prop where
  live : run.level = some level
  complete : Complete run
  adjusted : (if 0 < run.inFlight then adjustTreeAfterLod s.registry run level else some s.registry) = some registry
  logged : log = if 0 < run.inFlight then s.log ++ [.publish serial i level] else s.log

inductive Turned (s : State) (b : Batch) (rest : List Batch) : State → Prop where
  | skip {i run} (loop : s.loop = .sweep i) (at_ : b.runs[i]? = some run) (stays : run.level = none ∨ ¬ Complete run) :
    Turned s b rest { s with loop := .sweep (i + 1) }
  | pause {i} (loop : s.loop = .sweep i) (past : b.runs[i]? = none) (active : 0 < b.active) :
    Turned s b rest { s with loop := .idle }
  | pop {i} (loop : s.loop = .sweep i) (past : b.runs[i]? = none) (none_ : b.active = 0) :
    Turned s b rest (frontBatch s rest)
  | retire {i run level registry log} (loop : s.loop = .sweep i) (at_ : b.runs[i]? = some run)
    (published : Published s b.serial i run level registry log) (last : descend run.work.nodes level = none) :
    Turned s b rest { setRun { s with registry := registry, log := log } { b with active := b.active - 1 } rest i
      { run with level := none, inFlight := 0, completed := 0 } with loop := .sweep (i + 1) }
  | lower {i run level registry log next} (loop : s.loop = .sweep i) (at_ : b.runs[i]? = some run)
    (published : Published s b.serial i run level registry log) (more : descend run.work.nodes level = some next) :
    Turned s b rest { setRun { s with registry := registry, log := log } b rest i
      { run with level := some next, inFlight := (run.work.nodes next).length, completed := 0 } with loop := .enqueue i 0 }
  | last {i k run level} (loop : s.loop = .enqueue i k) (at_ : b.runs[i]? = some run) (live : run.level = some level)
    (past : (run.work.nodes level)[k]? = none) : Turned s b rest { s with loop := .sweep (i + 1) }
  | start {i k run level node info} (loop : s.loop = .enqueue i k) (at_ : b.runs[i]? = some run)
    (live : run.level = some level) (here : (run.work.nodes level)[k]? = some node)
    (read : getStorageInfo s.registry node = some info) :
    Turned s b rest { setRun s b rest i { run with childStorageInfo := Function.update run.childStorageInfo k info } with
      workers := s.workers ++ [⟨b.serial, i, k⟩]
      log := s.log ++ [.start b.serial i level k]
      loop := .enqueue i (k + 1) }

theorem turnCases {s s' : State} {b : Batch} {rest : List Batch} (front : s.batches = b :: rest)
    (turned : turn s = some s') : Turned s b rest s' := by
  unfold turn at turned
  split at turned
  · rename_i none_
    rw [front] at none_
    cases none_
  rename_i b' rest' front'
  rw [front] at front'
  cases front'
  split at turned
  · cases turned
  · rename_i i loop
    split at turned
    · rename_i run at_
      unfold advanceTree at turned
      split at turned
      · rename_i none_
        cases turned
        exact .skip loop at_ (Or.inl none_)
      · rename_i level live
        split at turned
        · rename_i running
          cases turned
          exact .skip loop at_ (Or.inr fun complete => complete running)
        · rename_i complete
          split at turned
          · cases turned
          · rename_i registry adjusted
            dsimp only at turned
            split at turned
            · rename_i last
              cases turned
              exact .retire loop at_ ⟨live, complete, adjusted, rfl⟩ last
            · rename_i next more
              cases turned
              exact .lower loop at_ ⟨live, complete, adjusted, rfl⟩ more
    · rename_i past
      split at turned
      · rename_i active
        cases turned
        exact .pause loop past active
      · rename_i none_
        cases turned
        exact .pop loop past (by omega)
  · rename_i i k loop
    split at turned
    · cases turned
    · rename_i run at_
      split at turned
      · cases turned
      · rename_i level live
        unfold enqueueLod at turned
        split at turned
        · rename_i past
          cases turned
          exact .last loop at_ live past
        · rename_i node here
          obtain ⟨info, read, rfl⟩ := Option.map_eq_some_iff.mp turned
          exact .start loop at_ live here read

theorem descendBelow {nodes : Nat → List Node} {level next : Nat} (down : descend nodes level = some next) :
    next < level ∧ nodes next ≠ [] ∧ ∀ l, next < l → l < level → nodes l = [] := by
  induction level with
  | zero => cases down
  | succ level ih =>
    unfold descend at down
    split at down
    · rename_i none_
      obtain ⟨less, some_, between⟩ := ih down
      refine ⟨by omega, some_, fun l above below => ?_⟩
      rcases Nat.lt_succ_iff_lt_or_eq.mp below with below | rfl
      · exact between l above below
      · exact none_
    · rename_i some_
      cases down
      exact ⟨Nat.lt_succ_self _, some_, fun l above below => absurd below (by omega)⟩

theorem descendNone {nodes : Nat → List Node} {level : Nat} (down : descend nodes level = none) :
    ∀ l < level, nodes l = [] := by
  induction level with
  | zero => exact fun l below => absurd below (Nat.not_lt_zero l)
  | succ level ih =>
    unfold descend at down
    split at down
    · rename_i none_
      intro l below
      rcases Nat.lt_succ_iff_lt_or_eq.mp below with below | rfl
      · exact ih down l below
      · exact none_
    · cases down

end Dewfall.LodPass
