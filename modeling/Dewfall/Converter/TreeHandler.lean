import Dewfall.Core.StorageMap
import Dewfall.General.Transition

/-! The tree loop's checkpoints and bands. A tree is known by its id, the place of its slot; of a loaded
tree only what a checkpoint looks at is kept. What insertion, collapse and LOD do to a tree is any change
of its storage map that keeps what was discarded. The uploader takes one band at a time; a band's manifest
and the root manifest are written in one step. Inputs, attribute configs and the points themselves are not
modelled. -/
namespace Dewfall.TreeHandler
open General.Transition StorageMap

inductive TreeState where | building | final | uploaded
  deriving DecidableEq, Repr

structure Tree where
  mortonMax : Nat
  isDirty : Bool
  leavesCollapsed : Bool
  storageMap : InputStorageMap

structure Slot where
  tree : Option Tree
  state : TreeState
  -- `none` is `tree_band_none`.
  band : Option Nat
  location : Location

structure Registry where
  slots : List Slot
  mutableDataset : Bool
  lodWatermark : Nat

structure BandJob where
  bandId : Nat
  watermark : Nat
  terminal : Bool
  trees : List (Nat × Location)
  deriving DecidableEq, Repr

-- A serialized tree and what its map had discarded.
structure Taken where
  tree : Nat
  discards : List Location
  deriving DecidableEq, Repr

inductive Chain where
  | idle
  | writingTrees (taken : List Taken)
  | writingRegistry (old : List Location) (snapshot : Registry)
  | writingIndex (old : List Location) (snapshot : Registry) (location : Location) (readable : Bool)
  | committed

structure World where
  registry : Registry
  passWatermark : Option Nat
  pendingPassWatermark : Option Nat
  -- A checkpoint has been asked for and has not started: a rerun, while one is in flight.
  serializeWanted : Bool
  chain : Chain
  -- The index names these blobs of the backend, the registry's among them.
  metadata : List Location
  index : Option (Registry × Bool)
  bandSink : Bool
  nextBandId : Nat
  terminalBandEmitted : Bool
  -- The band manifests of the bucket, and the bands that its root manifest names.
  objects : List BandJob
  bucket : List BandJob
  -- In the uploader's pipe, in its `_queued`, being processed, and reported back.
  queue : List BandJob
  waiting : List BandJob
  inFlight : Option BandJob
  posted : List BandJob
  -- Since the cache was opened: what each commit has freed, what the trees' maps have discarded, what
  -- newer blobs have superseded, and every blob a checkpoint has allocated.
  freed : List (List Location)
  discarded : List Location
  superseded : List Location
  written : List Location

def terminal : Nat := 2 ^ 192 - 1

def start (sink : Bool) : World where
  registry := ⟨[], false, 0⟩
  passWatermark := none
  pendingPassWatermark := none
  serializeWanted := false
  chain := .idle
  metadata := []
  index := none
  bandSink := sink
  nextBandId := 0
  terminalBandEmitted := false
  objects := []
  bucket := []
  queue := []
  waiting := []
  inFlight := none
  posted := []
  freed := []
  discarded := []
  superseded := []
  written := []

/-! ## The trees between checkpoints -/

def zeroLocation : Location := ⟨0, 0, 0⟩

def Registry.modify (r : Registry) (i : Nat) (f : Slot → Slot) : Registry := { r with slots := r.slots.modify i f }

def addTree (w : World) (mortonMax : Nat) (storageMap : InputStorageMap) : World :=
  let slot : Slot := ⟨some ⟨mortonMax, true, false, storageMap⟩, .building, none, zeroLocation⟩
  { w with
    registry := { w.registry with slots := w.registry.slots ++ [slot] }
    discarded := w.discarded ++ storageMap.discarded }

def Slot.change (storageMap : InputStorageMap) (leavesCollapsed : Bool) (s : Slot) : Slot :=
  { s with tree := s.tree.map fun t =>
      { t with isDirty := true, leavesCollapsed := leavesCollapsed, storageMap := storageMap } }

def Slot.discards (s : Slot) : List Location := (s.tree.map fun t => t.storageMap.discarded).getD []

def discardsOf (slots : List Slot) (i : Nat) : List Location := (slots[i]?.map Slot.discards).getD []

def changeTree (w : World) (i : Nat) (storageMap : InputStorageMap) (leavesCollapsed : Bool) : World :=
  { w with
    registry := w.registry.modify i (Slot.change storageMap leavesCollapsed)
    discarded := w.discarded ++ storageMap.discarded.drop (discardsOf w.registry.slots i).length }

def loadTree (w : World) (i mortonMax : Nat) (leavesCollapsed : Bool) (map : InputId → Option Value) : World :=
  { w with registry := w.registry.modify i fun s =>
      { s with tree := some ⟨mortonMax, false, leavesCollapsed, map, []⟩ } }

def lowerLodFloor (w : World) (floor : Nat) : World :=
  { w with
    registry := { w.registry with lodWatermark := min floor w.registry.lodWatermark }
    passWatermark := w.passWatermark.map (min floor)
    pendingPassWatermark := w.pendingPassWatermark.map (min floor) }

def raise (watermark : Option Nat) (target : Nat) : Option Nat :=
  match watermark with
  | none => some target
  | some old => some (if old < target then target else old)

def generateLod (w : World) (max : Nat) : World :=
  { w with pendingPassWatermark := raise w.pendingPassWatermark max }

-- `handle_serialize_trees`: the generator posts it when its pass is complete.
def passConcluded (w : World) : World :=
  { w with
    passWatermark := match w.pendingPassWatermark with
      | none => w.passWatermark
      | some pending => raise w.passWatermark pending
    serializeWanted := true }

/-! ## `do_serialize_trees` -/

def Slot.mark (mutableDataset : Bool) (pass : Nat) (s : Slot) : Slot :=
  match s.tree with
  | none => s
  | some t =>
    if !mutableDataset && s.state = .building && t.leavesCollapsed && (!decide (pass < terminal) || t.mortonMax < pass)
    then { s with state := .final } else s

def markFinal (r : Registry) : Option Nat → Registry
  | none => r
  | some pass =>
    { r with
      lodWatermark := if r.lodWatermark < pass then pass else r.lodWatermark
      slots := r.slots.map (Slot.mark r.mutableDataset pass) }

def Slot.dirty (s : Slot) : Bool := (s.tree.map Tree.isDirty).getD false

def Slot.take (s : Slot) : Slot :=
  { s with tree := s.tree.map fun t =>
      { t with isDirty := false, storageMap := { t.storageMap with discarded := [] } } }

-- The trees from id `i` on; those in `failing` do not serialize, and the first of them ends the loop.
def serializeFrom (failing : List Nat) : Nat → List Slot → List Slot × List Taken × Bool
  | _, [] => ([], [], true)
  | i, s :: rest =>
    if s.dirty then
      if i ∈ failing then (s :: rest, [], false)
      else
        let (slots, taken, ok) := serializeFrom failing (i + 1) rest
        (s.take :: slots, ⟨i, s.discards⟩ :: taken, ok)
    else
      let (slots, taken, ok) := serializeFrom failing (i + 1) rest
      (s :: slots, taken, ok)

def Slot.restore (discards : List Location) (s : Slot) : Slot :=
  { s with tree := s.tree.map fun t =>
      { t with isDirty := true, storageMap := t.storageMap.restoreDiscarded discards } }

def restoreFailedSerialize (taken : List Taken) (slots : List Slot) : List Slot :=
  taken.foldl (fun slots t => slots.modify t.tree (Slot.restore t.discards)) slots

def serializeTrees (w : World) (failing : List Nat) : World :=
  let marked := markFinal w.registry w.passWatermark
  let (slots, taken, ok) := serializeFrom failing 0 marked.slots
  { w with
    registry := { marked with slots := if ok then slots else restoreFailedSerialize taken slots }
    serializeWanted := false
    chain := if ok then .writingTrees taken else .idle }

def Slot.superseded (s : Slot) : List Location := if 0 < s.location.offset then [s.location] else []

-- New locations for the trees, and the ones they had.
def replaceLocations : List (Nat × Location) → List Slot → List Slot × List Location
  | [], slots => (slots, [])
  | (i, location) :: rest, slots =>
    let old := (slots[i]?.map Slot.superseded).getD []
    let (after, others) := replaceLocations rest (slots.modify i fun s => { s with location := location })
    (after, old ++ others)

-- What the registry's blob holds: no tree.
def unloaded (s : Slot) : Slot := { s with tree := none }

def Registry.serialized (r : Registry) : Registry := { r with slots := r.slots.map unloaded }

def treesWritten (w : World) (taken : List Taken) (locations : List Location) (ok : Bool) : World :=
  let w := { w with written := w.written ++ locations }
  if ok then
    let discards := taken.flatMap Taken.discards
    let (slots, old) := replaceLocations ((taken.map Taken.tree).zip locations) w.registry.slots
    let registry := { w.registry with slots := slots }
    { w with
      registry := registry
      superseded := w.superseded ++ old
      chain := .writingRegistry (discards ++ old) registry.serialized }
  else
    { w with
      registry := { w.registry with slots := restoreFailedSerialize taken w.registry.slots }
      chain := .idle }

-- An error of the registry's write is not looked at.
def registryWritten (w : World) (old : List Location) (snapshot : Registry) (location : Location) (ok : Bool) :
    World :=
  { w with written := w.written ++ [location], chain := .writingIndex old snapshot location ok }

-- The backend takes its own new blobs, and frees `old` and its former ones only when the index is written.
def indexWritten (w : World) (old : List Location) (snapshot : Registry) (location : Location) (readable : Bool)
    (metadata : List Location) (ok : Bool) : World :=
  let w := { w with written := w.written ++ metadata }
  if ok then
    let former := w.metadata.filter fun l => 0 < l.offset
    { w with
      metadata := location :: metadata
      index := some (snapshot, readable)
      freed := w.freed ++ [old ++ former]
      superseded := w.superseded ++ former
      chain := .committed }
  else { w with chain := .idle }

def Slot.unbanded (s : Slot) : Bool := s.state = .final && s.band = none

def Slot.provisional (band : Nat) (s : Slot) : Slot := if s.unbanded then { s with band := some band } else s

def bandTrees (slots : List Slot) : List (Nat × Location) :=
  slots.zipIdx.filterMap fun s => if s.1.unbanded then some (s.2, s.1.location) else none

def bandJob (w : World) : BandJob where
  bandId := w.nextBandId
  watermark := w.registry.lodWatermark
  terminal := !decide (w.registry.lodWatermark < terminal)
  trees := bandTrees w.registry.slots

def emitBandJob (w : World) : World :=
  if !w.bandSink || w.registry.mutableDataset then w
  else
    let job := bandJob w
    if job.trees = [] ∧ (!job.terminal || w.terminalBandEmitted) then w
    else
      { w with
        registry := { w.registry with slots := w.registry.slots.map (Slot.provisional job.bandId) }
        nextBandId := w.nextBandId + 1
        terminalBandEmitted := job.terminal || w.terminalBandEmitted
        queue := w.queue ++ [job] }

/-! ## The uploader -/

def handleBand (w : World) (job : BandJob) : World :=
  match w.inFlight, w.waiting ++ [job] with
  | none, next :: rest => { w with inFlight := some next, waiting := rest }
  | _, queued => { w with waiting := queued }

-- The band that follows goes through `handle_band` again, behind those that wait.
def handleFollowing (w : World) : World :=
  match w.waiting with
  | [] => w
  | following :: rest => handleBand { w with waiting := rest } following

-- The bands below the count of the root manifest.
def bandsNamed (objects : List BandJob) (bandCount : Nat) : List BandJob :=
  (List.range bandCount).filterMap fun id => objects.find? fun job => job.bandId = id

def commitBand (w : World) (job : BandJob) : World :=
  let objects := job :: w.objects.filter fun other => other.bandId ≠ job.bandId
  { w with
    objects := objects
    bucket := bandsNamed objects (job.bandId + 1)
    posted := w.posted ++ [job] }

/-! ## The bucket and a new session -/

def Slot.upload (band : Nat) (s : Slot) : Slot := { s with state := .uploaded, band := some band }

def markUploaded (trees : List (Nat × Nat)) (slots : List Slot) : List Slot :=
  trees.foldl (fun slots t => slots.modify t.1 (Slot.upload t.2)) slots

def BandJob.members (job : BandJob) : List (Nat × Nat) := job.trees.map fun t => (t.1, job.bandId)

def Slot.clearProvisional (s : Slot) : Slot := if s.state = .final then { s with band := none } else s

def restoreUploadedTrees (bucket : List BandJob) (slots : List Slot) : List Slot :=
  (markUploaded (bucket.flatMap BandJob.members) slots).map Slot.clearProvisional

def isComplete (bucket : List BandJob) : Bool := (bucket.getLast?.map BandJob.terminal).getD false

-- With a destination the bucket says what is uploaded and which band is next.
def installSink (bucket : List BandJob) (w : World) : World :=
  { w with
    registry := { w.registry with slots := restoreUploadedTrees bucket w.registry.slots }
    bandSink := true
    nextBandId := bucket.length
    terminalBandEmitted := isComplete bucket }

def openRegistry (w : World) : World :=
  match w.index with
  | none => start false
  | some (registry, readable) =>
    let watermark := if 0 < registry.lodWatermark then some registry.lodWatermark else none
    { start false with
      registry := registry
      passWatermark := watermark
      pendingPassWatermark := watermark
      metadata := w.metadata
      index := some (registry, readable)
      written := w.metadata ++ registry.slots.flatMap Slot.superseded }

def openCache (w : World) (sink : Bool) : World :=
  let opened := { openRegistry w with objects := w.objects, bucket := w.bucket }
  if sink then installSink w.bucket opened else opened

inductive Action where
  | addTree (mortonMax : Nat) (storageMap : InputStorageMap)
  | changeTree (i : Nat) (storageMap : InputStorageMap) (leavesCollapsed : Bool)
  | loadTree (i mortonMax : Nat) (leavesCollapsed : Bool) (map : InputId → Option Value)
  | setMutable (value : Bool)
  | lowerLodFloor (floor : Nat)
  | generateLod (max : Nat)
  | passConcluded
  | requestCheckpoint
  | serializeTrees (failing : List Nat)
  | treesWritten (locations : List Location) (ok : Bool)
  | registryWritten (location : Location) (ok : Bool)
  | indexWritten (metadata : List Location) (ok : Bool)
  | emitBandJob
  | deliverBand
  | commitBand
  | markBandUploaded
  | openCache (sink : Bool)

def perform (w : World) : Action → World
  | .addTree mortonMax storageMap => addTree w mortonMax storageMap
  | .changeTree i storageMap leavesCollapsed => changeTree w i storageMap leavesCollapsed
  | .loadTree i mortonMax leavesCollapsed map => loadTree w i mortonMax leavesCollapsed map
  | .setMutable value => { w with registry := { w.registry with mutableDataset := value } }
  | .lowerLodFloor floor => lowerLodFloor w floor
  | .generateLod max => generateLod w max
  | .passConcluded => passConcluded w
  | .requestCheckpoint => { w with serializeWanted := true }
  | .serializeTrees failing => serializeTrees w failing
  | .treesWritten locations ok =>
    match w.chain with
    | .writingTrees taken => treesWritten w taken locations ok
    | _ => w
  | .registryWritten location ok =>
    match w.chain with
    | .writingRegistry old snapshot => registryWritten w old snapshot location ok
    | _ => w
  | .indexWritten metadata ok =>
    match w.chain with
    | .writingIndex old snapshot location readable => indexWritten w old snapshot location readable metadata ok
    | _ => w
  | .emitBandJob =>
    match w.chain with
    | .committed => { emitBandJob w with chain := .idle }
    | _ => w
  | .deliverBand =>
    match w.queue with
    | [] => w
    | job :: rest => handleBand { w with queue := rest } job
  | .commitBand =>
    match w.inFlight with
    | none => w
    | some job => handleFollowing (commitBand { w with inFlight := none } job)
  | .markBandUploaded =>
    match w.posted with
    | [] => w
    | job :: rest =>
      { w with
        posted := rest
        registry := { w.registry with slots := markUploaded job.members w.registry.slots } }
  | .openCache sink => openCache w sink

def Slot.isUnloaded (s : Slot) : Bool := s.tree.isNone

def Chain.isIdle : Chain → Bool
  | .idle => true
  | _ => false

def Chain.taken : Chain → Option (List Taken)
  | .writingTrees taken => some taken
  | _ => none

-- A tree's map only adds to what it has discarded; a tree is loaded once; each serialized tree gets the
-- location allocated for it; a cache is opened again only where its registry can be read, and with a
-- destination only where the bucket has every band that its root manifest names.
def Allowed (w : World) : Action → Prop
  | .changeTree i storageMap _ => ∃ s ∈ w.registry.slots[i]?, s.isUnloaded = false ∧
      s.discards <+: storageMap.discarded
  | .loadTree i _ _ _ => ∃ s ∈ w.registry.slots[i]?, s.isUnloaded = true
  | .serializeTrees _ => w.serializeWanted = true ∧ w.chain.isIdle = true
  | .treesWritten locations _ => ∀ taken ∈ w.chain.taken, locations.length = taken.length
  | .openCache sink => (∀ index ∈ w.index, index.2 = true) ∧
      (sink = true → w.bucket.map BandJob.bandId = List.range w.bucket.length)
  | _ => True

instance (w a) : Decidable (Allowed w a) := by
  cases a <;> dsimp only [Allowed] <;> infer_instance

def system (sink : Bool) : System World Action := System.ofFunction (start sink) Allowed perform

end Dewfall.TreeHandler
