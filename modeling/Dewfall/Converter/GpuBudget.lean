import Dewfall.Converter.TreeMerge
import Dewfall.General.Transition

/-! The GPU bytes of the render list over frames: what a node is charged when it is decoded, what its buffers
take when it is uploaded, and the gate between both. Loads are scheduled and uploads ordered in any way; the
contents of the buffers, the virtual nodes and the casts of sizes to int are not treated. -/
namespace Dewfall.GpuBudget
open General.Transition
open TreeMerge (DewType)

/-! ## Nodes -/

inductive IoState where | none_ | loading | converting | loaded
  deriving DecidableEq, Repr

structure LoadedNodeData where
  vertexData : Bool
  vertexDataSize : Nat
  attributeDataSize : Nat
  attributeType : DewType
  attributeComponents : Nat
  repLevelData : Bool
  repLevelDataSize : Nat
  pointCount : Nat
  deriving DecidableEq, Repr

structure RenderNode where
  ioState : IoState
  loadedData : LoadedNodeData
  convertDone : Bool
  uploaded : Bool
  gpuMemorySize : Nat
  -- The bytes the initialised buffers were given.
  gpuBuffers : List Nat
  paramsBuffer : Option Nat
  fadeOut : Bool
  monolithFreed : Bool
  deriving DecidableEq, Repr

def sizeofCameraView : Nat := 64
def sizeofParamsData : Nat := 16

def release (l : LoadedNodeData) : LoadedNodeData := { l with vertexData := false, repLevelData := false }

def freshNode : RenderNode :=
  ⟨.none_, ⟨false, 0, 0, .u8, 3, false, 0, 0⟩, false, false, 0, [], none, false, false⟩

def held (node : RenderNode) : Nat := node.gpuBuffers.sum + node.paramsBuffer.getD 0

-- The three sizes are added in 32 bits.
def charge (l : LoadedNodeData) : Nat :=
  (l.vertexDataSize + l.attributeDataSize + l.repLevelDataSize) % 2 ^ 32 + sizeofCameraView + sizeofParamsData

def convertNodeData (node : RenderNode) (data : LoadedNodeData) : RenderNode :=
  if data.vertexData = false ∨ data.pointCount = 0 then { node with loadedData := release data, convertDone := true }
  else { node with loadedData := data, gpuMemorySize := charge data, convertDone := true }

/-! ## The upload -/

def shouldNormalize (stretch : Bool) (l : LoadedNodeData) : Bool :=
  stretch && !(decide (l.attributeType = .u16) && decide (l.attributeComponents = 3))

-- One float a component.
def normalizedSize (l : LoadedNodeData) : Nat := l.pointCount * l.attributeComponents * 4 % 2 ^ 32

def attributeBytes (stretch : Bool) (l : LoadedNodeData) : Nat :=
  if shouldNormalize stretch l then normalizedSize l else l.attributeDataSize

def uploadNode (stretch : Bool) (node : RenderNode) : RenderNode :=
  let loaded := node.loadedData
  let repLevel := if loaded.repLevelData && decide (loaded.repLevelDataSize ≠ 0) then [loaded.repLevelDataSize] else []
  { node with
    gpuBuffers := [loaded.vertexDataSize, attributeBytes stretch loaded] ++ repLevel ++ [sizeofCameraView]
    paramsBuffer := some sizeofParamsData
    uploaded := true
    loadedData := release loaded }

structure Frame where
  gpuMemoryBudget : Nat
  maxUploadBytes : Nat
  virtualGpuUsed : Nat
  -- `attr_min < attr_max`
  stretch : Bool
  -- The loads that are ready, those that the scheduling starts, and the order of the uploads.
  ready : List Nat
  scheduled : List Nat
  order : List Nat
  deriving DecidableEq, Repr

structure Uploading where
  nodes : List RenderNode
  gpuMemoryUsed : Nat
  bytesUploaded : Nat

def uploadLoop (p : Frame) : List Nat → Uploading → Uploading
  | [], s => s
  | i :: rest, s =>
    if p.maxUploadBytes ≤ s.bytesUploaded then s
    else match s.nodes[i]? with
      | none => s
      | some node =>
        if p.gpuMemoryBudget < s.gpuMemoryUsed + p.virtualGpuUsed + node.gpuMemorySize then s
        else uploadLoop p rest ⟨s.nodes.set i (uploadNode p.stretch node), s.gpuMemoryUsed + node.gpuMemorySize,
          s.bytesUploaded + node.gpuMemorySize⟩

/-! ## The frame -/

def classify (ready : Bool) (node : RenderNode) : RenderNode :=
  match node.ioState with
  | .loading => if ready then { node with ioState := .converting, convertDone := false } else node
  | .converting =>
    if node.convertDone then
      if node.loadedData.vertexData && decide (0 < node.loadedData.pointCount) then { node with ioState := .loaded }
      else { node with ioState := .none_ }
    else node
  | .loaded | .none_ => node

def wantsLoad (node : RenderNode) : Bool :=
  decide (node.ioState = .none_) && !node.uploaded && !node.fadeOut && !node.monolithFreed

-- Behind the scan: what was loaded before or is loaded now and not yet uploaded.
def wantsUpload (node : RenderNode) : Bool := decide (node.ioState = .loaded) && !node.uploaded

def scan (p : Frame) (nodes : List RenderNode) : List RenderNode :=
  nodes.mapIdx fun i node => classify (decide (i ∈ p.ready)) node

def schedule (p : Frame) (nodes : List RenderNode) : List RenderNode :=
  nodes.mapIdx fun i node =>
    if wantsLoad node && decide (i ∈ p.scheduled) then { node with ioState := .loading } else node

def uploadList (nodes : List RenderNode) : List Nat :=
  (List.range nodes.length).filter fun i => (nodes[i]?.map wantsUpload).getD false

def charged (node : RenderNode) : Nat := if node.uploaded then node.gpuMemorySize else 0

def scannedGpuMemory (nodes : List RenderNode) : Nat := (nodes.map charged).sum

def processIoAndUpload (p : Frame) (nodes : List RenderNode) : Uploading :=
  uploadLoop p p.order ⟨schedule p (scan p nodes), scannedGpuMemory nodes, 0⟩

/-! ## Between the frames -/

structure World where
  renderList : List RenderNode
  deferredDestroy : List RenderNode

def initial : World := ⟨[], []⟩

-- The buffers of the node are destroyed and its bytes are taken back.
def freeMonolith (freed : Bool) (node : RenderNode) : RenderNode :=
  { node with
    gpuBuffers := []
    paramsBuffer := none
    uploaded := false
    ioState := .none_
    monolithFreed := node.monolithFreed || freed
    gpuMemorySize := 0 }

def handleAttributeChange (node : RenderNode) : RenderNode :=
  { node with
    loadedData := release node.loadedData
    gpuBuffers := if node.uploaded then [] else node.gpuBuffers
    paramsBuffer := if node.uploaded then none else node.paramsBuffer
    uploaded := false
    ioState := .none_ }

-- A steady draw needs no params, a fading one makes them again.
def drawSteady (node : RenderNode) : RenderNode := { node with paramsBuffer := none }
def drawFading (node : RenderNode) : RenderNode := { node with paramsBuffer := some sizeofParamsData }

inductive Action where
  | frame (p : Frame)
  | convert (i : Nat) (data : LoadedNodeData)
  | arrive (i : Nat)
  -- Departed, a node is destroyed or, while it is busy, put off.
  | depart (i : Nat) (busy : Bool)
  | destroyDeferred (i : Nat)
  | fade (i : Nat) (out : Bool)
  | draw (i : Nat) (steady : Bool)
  | free (i : Nat) (freed : Bool)
  | reload (i : Nat)
  | attributeChange

def edit (nodes : List RenderNode) (i : Nat) (f : RenderNode → RenderNode) : List RenderNode :=
  match nodes[i]? with
  | none => nodes
  | some node => nodes.set i (f node)

def perform (w : World) : Action → World
  | .frame p => { w with renderList := (processIoAndUpload p w.renderList).nodes }
  | .convert i data => { w with renderList := edit w.renderList i fun node => convertNodeData node data }
  | .arrive i => { w with renderList := w.renderList.take i ++ freshNode :: w.renderList.drop i }
  | .depart i busy =>
    ⟨w.renderList.eraseIdx i, if busy then w.deferredDestroy ++ w.renderList[i]?.toList else w.deferredDestroy⟩
  | .destroyDeferred i => { w with deferredDestroy := w.deferredDestroy.eraseIdx i }
  | .fade i out => { w with renderList := edit w.renderList i fun node => { node with fadeOut := out } }
  | .draw i steady => { w with renderList := edit w.renderList i (if steady then drawSteady else drawFading) }
  | .free i freed => { w with renderList := edit w.renderList i (freeMonolith freed) }
  | .reload i => { w with renderList := edit w.renderList i fun node =>
      { node with monolithFreed := false, ioState := .none_ } }
  | .attributeChange => { w with renderList := w.renderList.map handleAttributeChange }

def nodeMeets (nodes : List RenderNode) (i : Nat) (cond : RenderNode → Bool) : Bool := (nodes[i]?.map cond).getD false

def Allowed (w : World) : Action → Prop
  | .frame p => p.order.Perm (uploadList (schedule p (scan p w.renderList)))
  | .convert i _ => nodeMeets w.renderList i (fun n => decide (n.ioState = .converting) && !n.convertDone) = true
  | .draw i _ => nodeMeets w.renderList i RenderNode.uploaded = true
  | .free i _ => nodeMeets w.renderList i RenderNode.uploaded = true
  | .reload i => nodeMeets w.renderList i RenderNode.monolithFreed = true
  | .arrive _ | .depart _ _ | .destroyDeferred _ | .fade _ _ | .attributeChange => True

instance (w : World) : (a : Action) → Decidable (Allowed w a)
  | .frame p => inferInstanceAs (Decidable (p.order.Perm _))
  | .convert _ _ | .draw _ _ | .free _ _ | .reload _ => inferInstanceAs (Decidable (_ = true))
  | .arrive _ | .depart _ _ | .destroyDeferred _ | .fade _ _ | .attributeChange => inferInstanceAs (Decidable True)

def system : System World Action := .ofFunction initial Allowed perform

/-! ## What a node is charged -/

def awaits (node : RenderNode) : Bool :=
  !node.uploaded && (decide (node.ioState = .loaded) || decide (node.ioState = .converting) && node.convertDone &&
    (node.loadedData.vertexData && decide (0 < node.loadedData.pointCount)))

structure NodeSound (node : RenderNode) : Prop where
  empty : node.uploaded = false → node.gpuBuffers = [] ∧ node.paramsBuffer = none
  shown : node.uploaded = true → node.ioState = .loaded
  charged : node.uploaded = true → node.gpuMemorySize = node.gpuBuffers.sum + sizeofParamsData
  params : node.paramsBuffer = none ∨ node.paramsBuffer = some sizeofParamsData
  freed : node.monolithFreed = true → node.ioState = .none_ ∧ node.uploaded = false
  decoded : awaits node = true → node.gpuMemorySize = charge node.loadedData

-- The buffers are given what the decoded sizes add up to.
def Exact (stretch : Bool) (l : LoadedNodeData) : Prop :=
  l.vertexDataSize + l.attributeDataSize + l.repLevelDataSize < 2 ^ 32 ∧
    (l.repLevelData = true ∨ l.repLevelDataSize = 0) ∧ attributeBytes stretch l = l.attributeDataSize

instance (stretch : Bool) (l : LoadedNodeData) : Decidable (Exact stretch l) :=
  inferInstanceAs (Decidable (_ ∧ _ ∧ _))

variable {node : RenderNode}

theorem freshSound : NodeSound freshNode :=
  ⟨fun _ => ⟨rfl, rfl⟩, fun up => (nomatch up), fun up => (nomatch up), .inl rfl, fun up => (nomatch up), fun up => (nomatch up)⟩

theorem notShown (sound : NodeSound node) (io : node.ioState ≠ .loaded) : node.uploaded = false :=
  Bool.eq_false_iff.mpr fun up => io (sound.shown up)

theorem convertSound {data : LoadedNodeData} (sound : NodeSound node) (converting : node.ioState = .converting) :
    NodeSound (convertNodeData node data) := by
  have hidden := notShown sound (by rw [converting]; decide)
  unfold convertNodeData
  split
  · refine ⟨sound.empty, sound.shown, sound.charged, sound.params, sound.freed, fun waiting => ?_⟩
    unfold awaits at waiting
    simp [converting, release] at waiting
  · refine ⟨sound.empty, sound.shown, fun up => ?_, sound.params, sound.freed, fun _ => rfl⟩
    exact absurd (hidden.symm.trans up) Bool.false_ne_true

theorem classifyKeeps (ready : Bool) (node : RenderNode) :
    (classify ready node).loadedData = node.loadedData ∧ (classify ready node).uploaded = node.uploaded ∧
      (classify ready node).gpuMemorySize = node.gpuMemorySize ∧ (classify ready node).gpuBuffers = node.gpuBuffers ∧
      (classify ready node).paramsBuffer = node.paramsBuffer ∧
      (classify ready node).monolithFreed = node.monolithFreed := by
  unfold classify
  split
  · split
    · exact ⟨rfl, rfl, rfl, rfl, rfl, rfl⟩
    · exact ⟨rfl, rfl, rfl, rfl, rfl, rfl⟩
  · split
    · split
      · exact ⟨rfl, rfl, rfl, rfl, rfl, rfl⟩
      · exact ⟨rfl, rfl, rfl, rfl, rfl, rfl⟩
    · exact ⟨rfl, rfl, rfl, rfl, rfl, rfl⟩
  · exact ⟨rfl, rfl, rfl, rfl, rfl, rfl⟩
  · exact ⟨rfl, rfl, rfl, rfl, rfl, rfl⟩

theorem classifyAwaits {ready : Bool} (waiting : awaits (classify ready node) = true) : awaits node = true := by
  unfold classify at waiting
  split at waiting
  · split at waiting
    · simp [awaits] at waiting
    · exact waiting
  · rename_i converting
    split at waiting
    · rename_i done
      split at waiting
      · rename_i valid
        simp only [awaits, Bool.and_eq_true, Bool.not_eq_true'] at waiting
        simp [awaits, converting, done, waiting.1, valid]
      · simp [awaits] at waiting
    · exact waiting
  · exact waiting
  · exact waiting

theorem classifySound (ready : Bool) (sound : NodeSound node) : NodeSound (classify ready node) := by
  obtain ⟨data, up, size, buffers, params, freed⟩ := classifyKeeps ready node
  refine ⟨fun hidden => ?_, fun shown => ?_, fun shown => ?_, ?_, fun gone => ?_, fun waiting => ?_⟩
  · rw [buffers, params]
    exact sound.empty (up ▸ hidden)
  · have loaded := sound.shown (up ▸ shown)
    unfold classify
    rw [loaded]
    exact loaded
  · rw [size, buffers]
    exact sound.charged (up ▸ shown)
  · rw [params]
    exact sound.params
  · obtain ⟨idle, hidden⟩ := sound.freed (freed ▸ gone)
    rw [up]
    refine ⟨?_, hidden⟩
    unfold classify
    rw [idle]
    exact idle
  · rw [size, data]
    exact sound.decoded (classifyAwaits waiting)

theorem uploadBytes {stretch : Bool} (exact_ : Exact stretch node.loadedData) :
    (uploadNode stretch node).gpuBuffers.sum + sizeofParamsData = charge node.loadedData := by
  obtain ⟨fits, levels, color⟩ := exact_
  unfold uploadNode charge
  rw [Nat.mod_eq_of_lt fits]
  dsimp only
  rw [color]
  have levelBytes : (if node.loadedData.repLevelData && decide (node.loadedData.repLevelDataSize ≠ 0) then
      [node.loadedData.repLevelDataSize] else []).sum = node.loadedData.repLevelDataSize := by
    split
    · exact Nat.add_zero _
    · rename_i none_
      by_cases zero : node.loadedData.repLevelDataSize = 0
      · exact zero.symm
      · have present := levels.resolve_right zero
        exact absurd (by rw [present, Bool.true_and, decide_eq_true_eq]; exact zero) none_
  rw [List.sum_append, List.sum_append, levelBytes]
  simp only [List.sum_cons, List.sum_nil, Nat.add_zero]

theorem uploadSound {stretch : Bool} (sound : NodeSound node) (waiting : awaits node = true)
    (loaded : node.ioState = .loaded) (exact_ : Exact stretch node.loadedData) : NodeSound (uploadNode stretch node) := by
  refine ⟨fun up => (nomatch up), fun _ => loaded, fun _ => ?_, .inr rfl, fun gone => ?_, fun again => (nomatch again)⟩
  · exact (sound.decoded waiting).trans (uploadBytes exact_).symm
  · exact absurd ((sound.freed gone).1.symm.trans loaded) (by decide)

theorem heldCharged (sound : NodeSound node) : held node ≤ charged node := by
  unfold held charged
  split
  · rename_i up
    rw [sound.charged up]
    rcases sound.params with none_ | some_
    · rw [none_]
      exact Nat.add_le_add_left (Nat.zero_le _) _
    · rw [some_]
      exact Nat.le_refl _
  · rename_i hidden
    obtain ⟨buffers, params⟩ := sound.empty (by simpa using hidden)
    rw [buffers, params]
    exact Nat.le_refl 0

-- A steady draw drops the params, and with them sixteen of the charged bytes.
theorem chargeExact (sound : NodeSound node) (up : node.uploaded = true) :
    held node ≤ node.gpuMemorySize ∧ (node.gpuMemorySize = held node ↔ node.paramsBuffer ≠ none) := by
  unfold held
  rw [sound.charged up]
  rcases sound.params with none_ | some_
  · rw [none_]
    refine ⟨Nat.add_le_add_left (Nat.zero_le _) _, ⟨fun same => ?_, fun present => absurd rfl present⟩⟩
    have apart : node.gpuBuffers.sum + sizeofParamsData = node.gpuBuffers.sum + 0 := same
    have positive : 0 < sizeofParamsData := by decide
    omega
  · rw [some_]
    exact ⟨Nat.le_refl _, ⟨fun _ none_ => (nomatch none_), fun _ => rfl⟩⟩

/-! ## Lists of nodes -/

def heldBytes (nodes : List RenderNode) : Nat := (nodes.map held).sum

def ListSound (nodes : List RenderNode) : Prop := ∀ node ∈ nodes, NodeSound node

theorem sumSet (f : RenderNode → Nat) {nodes : List RenderNode} {i : Nat} (here : nodes[i]? = some node)
    (other : RenderNode) : ((nodes.set i other).map f).sum + f node = (nodes.map f).sum + f other := by
  induction nodes generalizing i with
  | nil => cases here
  | cons first rest ih =>
    cases i with
    | zero =>
      cases Option.some.inj here
      simp only [List.set_cons_zero, List.map_cons, List.sum_cons]
      omega
    | succ i =>
      have later := @ih i here
      simp only [List.set_cons_succ, List.map_cons, List.sum_cons]
      omega

theorem sumMono {f g : RenderNode → Nat} {nodes : List RenderNode} (le : ∀ node ∈ nodes, f node ≤ g node) :
    (nodes.map f).sum ≤ (nodes.map g).sum := by
  induction nodes with
  | nil => exact Nat.le_refl _
  | cons node rest ih =>
    simp only [List.map_cons, List.sum_cons]
    exact Nat.add_le_add (le node (List.mem_cons_self ..)) (ih fun other mem => le other (List.mem_cons_of_mem _ mem))

theorem heldScanned {nodes : List RenderNode} (sound : ListSound nodes) : heldBytes nodes ≤ scannedGpuMemory nodes :=
  sumMono fun node mem => heldCharged (sound node mem)

theorem setSound {nodes : List RenderNode} {i : Nat} (sound : ListSound nodes) (other : NodeSound node) :
    ListSound (nodes.set i node) := fun n mem =>
  (List.mem_or_eq_of_mem_set mem).elim (sound n) fun same => same ▸ other

theorem editSound {nodes : List RenderNode} {i : Nat} {f : RenderNode → RenderNode} (sound : ListSound nodes)
    (keeps : ∀ node, nodes[i]? = some node → NodeSound node → NodeSound (f node)) : ListSound (edit nodes i f) := by
  unfold edit
  split
  · exact sound
  · rename_i node here
    exact setSound sound (keeps node here (sound node (List.mem_of_getElem? here)))

/-! ## The uploads of a frame -/

-- Without an upload the bytes are those of before; behind one they are within the budget.
structure Accounted (p : Frame) (before : Nat) (s : Uploading) : Prop where
  sound : ListSound s.nodes
  used : s.gpuMemoryUsed = scannedGpuMemory s.nodes
  within : heldBytes s.nodes = before ∨ heldBytes s.nodes + p.virtualGpuUsed ≤ p.gpuMemoryBudget

def Ready (p : Frame) (nodes : List RenderNode) (i : Nat) : Prop :=
  ∃ node, nodes[i]? = some node ∧ wantsUpload node = true ∧ Exact p.stretch node.loadedData

theorem wantsAwaits (wants : wantsUpload node = true) :
    awaits node = true ∧ node.ioState = .loaded ∧ node.uploaded = false := by
  simp only [wantsUpload, Bool.and_eq_true, decide_eq_true_eq, Bool.not_eq_true'] at wants
  exact ⟨by simp [awaits, wants.1, wants.2], wants.1, wants.2⟩

theorem loopAccounted {p : Frame} {before : Nat} {order : List Nat} {s : Uploading} (accounted : Accounted p before s)
    (single : order.Nodup) (ready : ∀ i ∈ order, Ready p s.nodes i) : Accounted p before (uploadLoop p order s) := by
  induction order generalizing s with
  | nil => exact accounted
  | cons i rest ih =>
    unfold uploadLoop
    split
    · exact accounted
    · split
      · exact accounted
      · rename_i node here
        split
        · exact accounted
        · rename_i room
          obtain ⟨found, at_, wants, exact_⟩ := ready i (List.mem_cons_self ..)
          cases Option.some.inj (here.symm.trans at_)
          obtain ⟨waiting, loaded, hidden⟩ := wantsAwaits wants
          obtain ⟨fresh, later⟩ := List.nodup_cons.mp single
          have sound := @setSound (uploadNode p.stretch node) s.nodes i accounted.sound
            (uploadSound (accounted.sound node (List.mem_of_getElem? here)) waiting loaded exact_)
          have used : s.gpuMemoryUsed + node.gpuMemorySize =
              scannedGpuMemory (s.nodes.set i (uploadNode p.stretch node)) := by
            have moved := sumSet charged here (uploadNode p.stretch node)
            have nothing : charged node = 0 := if_neg (by rw [hidden]; decide)
            have after : charged (uploadNode p.stretch node) = node.gpuMemorySize := if_pos rfl
            rw [nothing, after] at moved
            rw [accounted.used]
            exact moved.symm
          refine ih ⟨sound, used, ?_⟩ later fun j mem => ?_
          · have most := heldScanned sound
            right
            dsimp only
            omega
          · obtain ⟨other, there, rest_⟩ := ready j (List.mem_cons_of_mem i mem)
            refine ⟨other, ?_, rest_⟩
            rw [List.getElem?_set_ne fun same => fresh (by rw [same]; exact mem)]
            exact there

/-! ## Whole runs -/

-- At a frame no uploaded node is put off, and what awaits its upload has the size it was decoded with.
def StepSound (w : World) : Action → Prop
  | .frame p => heldBytes w.deferredDestroy = 0 ∧
    ∀ node ∈ w.renderList, awaits node = true → Exact p.stretch node.loadedData
  | _ => True

instance (w : World) : (a : Action) → Decidable (StepSound w a)
  | .frame p => inferInstanceAs (Decidable (heldBytes w.deferredDestroy = 0 ∧
      ∀ node ∈ w.renderList, awaits node = true → Exact p.stretch node.loadedData))
  | .convert _ _ | .arrive _ | .depart _ _ | .destroyDeferred _ | .fade _ _ | .draw _ _ | .free _ _ | .reload _
  | .attributeChange => inferInstanceAs (Decidable True)

-- What the scan and the scheduling make of one node.
theorem prepared {p : Frame} {nodes : List RenderNode} (i : Nat) :
    ∃ f : RenderNode → RenderNode, (schedule p (scan p nodes))[i]? = nodes[i]?.map f ∧
      (∀ node, held (f node) = held node ∧ charged (f node) = charged node ∧ (f node).loadedData = node.loadedData) ∧
      (∀ node, NodeSound node → NodeSound (f node)) ∧ ∀ node, wantsUpload (f node) = true → awaits node = true := by
  let g : RenderNode → RenderNode := fun node =>
    if wantsLoad node && decide (i ∈ p.scheduled) then { node with ioState := .loading } else node
  refine ⟨fun node => g (classify (decide (i ∈ p.ready)) node), ?_, fun node => ?_, fun node sound => ?_, fun node wants => ?_⟩
  · rw [schedule, scan, List.getElem?_mapIdx, List.getElem?_mapIdx, Option.map_map]
    rfl
  · obtain ⟨data, up, size, buffers, params, freed⟩ := classifyKeeps (decide (i ∈ p.ready)) node
    have same : ∀ n : RenderNode, held (g n) = held n ∧ charged (g n) = charged n ∧ (g n).loadedData = n.loadedData := by
      intro n
      unfold g
      split
      · exact ⟨rfl, rfl, rfl⟩
      · exact ⟨rfl, rfl, rfl⟩
    obtain ⟨first, second, third⟩ := same (classify (decide (i ∈ p.ready)) node)
    refine ⟨first.trans ?_, second.trans ?_, third.trans data⟩
    · rw [held, held, buffers, params]
    · rw [charged, charged, up, size]
  · have known := classifySound (decide (i ∈ p.ready)) sound
    dsimp only
    unfold g
    split
    · rename_i wanted
      simp only [wantsLoad, Bool.and_eq_true, decide_eq_true_eq, Bool.not_eq_true'] at wanted
      obtain ⟨⟨⟨⟨idle, hidden⟩, _⟩, kept⟩, _⟩ := wanted
      refine ⟨known.empty, fun up => ?_, known.charged, known.params, fun gone => ?_, fun waiting => ?_⟩
      · exact absurd (hidden.symm.trans up) Bool.false_ne_true
      · exact absurd (kept.symm.trans gone) Bool.false_ne_true
      · simp [awaits] at waiting
    · exact known
  · dsimp only at wants
    unfold g at wants
    split at wants
    · simp [wantsUpload] at wants
    · exact classifyAwaits (wantsAwaits wants).1

theorem preparedSum {p : Frame} {nodes : List RenderNode} {f : RenderNode → Nat}
    (same : ∀ g : RenderNode → RenderNode,
      (∀ node, held (g node) = held node ∧ charged (g node) = charged node ∧ (g node).loadedData = node.loadedData) →
      ∀ node, f (g node) = f node) : ((schedule p (scan p nodes)).map f).sum = (nodes.map f).sum := by
  refine congrArg List.sum (List.ext_getElem? fun i => ?_)
  obtain ⟨g, at_, keeps, _⟩ := @prepared p nodes i
  rw [List.getElem?_map, List.getElem?_map, at_, Option.map_map]
  exact congrArg (fun h => nodes[i]?.map h) (funext fun node => same g keeps node)

theorem frameAccounted {p : Frame} {nodes : List RenderNode} (sound : ListSound nodes)
    (order : p.order.Perm (uploadList (schedule p (scan p nodes))))
    (exact_ : ∀ node ∈ nodes, awaits node = true → Exact p.stretch node.loadedData) :
    Accounted p (heldBytes nodes) (processIoAndUpload p nodes) := by
  refine loopAccounted ⟨fun node mem => ?_, ?_, .inl ?_⟩ (order.nodup_iff.mpr (List.nodup_range.filter _)) fun i mem => ?_
  · obtain ⟨i, here⟩ := List.mem_iff_getElem?.mp mem
    obtain ⟨f, at_, _, keeps, _⟩ := @prepared p nodes i
    obtain ⟨old, there, rfl⟩ := Option.map_eq_some_iff.mp (at_.symm.trans here)
    exact keeps old (sound old (List.mem_of_getElem? there))
  · exact (preparedSum fun _ keeps node => (keeps node).2.1).symm
  · exact preparedSum fun _ keeps node => (keeps node).1
  · obtain ⟨inside, wants⟩ := List.mem_filter.mp (order.subset mem)
    obtain ⟨f, at_, keeps, _, waiting⟩ := @prepared p nodes i
    rw [at_] at wants
    cases there : nodes[i]? with
    | none =>
      rw [there] at wants
      cases wants
    | some old =>
      rw [there] at wants at_
      refine ⟨f old, at_, wants, ?_⟩
      rw [(keeps old).2.2]
      exact exact_ old (List.mem_of_getElem? there) (waiting old wants)

theorem freeSound {freed : Bool} : NodeSound (freeMonolith freed node) :=
  ⟨fun _ => ⟨rfl, rfl⟩, fun up => (nomatch up), fun up => (nomatch up), .inl rfl, fun _ => ⟨rfl, rfl⟩,
    fun waiting => (nomatch waiting)⟩

theorem changeSound (sound : NodeSound node) : NodeSound (handleAttributeChange node) := by
  refine ⟨fun _ => ?_, fun up => (nomatch up), fun up => (nomatch up), ?_, fun _ => ⟨rfl, rfl⟩, fun waiting => (nomatch waiting)⟩
  · unfold handleAttributeChange
    cases up : node.uploaded with
    | true => exact ⟨rfl, rfl⟩
    | false => exact sound.empty up
  · unfold handleAttributeChange
    cases up : node.uploaded with
    | true => exact .inl rfl
    | false => exact sound.params

theorem drawSound (steady : Bool) (sound : NodeSound node) (up : node.uploaded = true) :
    NodeSound ((if steady then drawSteady else drawFading) node) := by
  have hidden : node.uploaded ≠ false := by
    rw [up]
    decide
  cases steady with
  | true => exact ⟨fun clear => absurd clear hidden, sound.shown, sound.charged, .inl rfl, sound.freed, sound.decoded⟩
  | false => exact ⟨fun clear => absurd clear hidden, sound.shown, sound.charged, .inr rfl, sound.freed, sound.decoded⟩

theorem meets {nodes : List RenderNode} {i : Nat} {cond : RenderNode → Bool} (may : nodeMeets nodes i cond = true)
    (here : nodes[i]? = some node) : cond node = true := by
  rwa [nodeMeets, here] at may

theorem performSound {w : World} {a : Action} (sound : ListSound w.renderList) (may : Allowed w a) (step : StepSound w a) :
    ListSound (perform w a).renderList := by
  cases a with
  | frame p => exact (frameAccounted sound may step.2).sound
  | convert i data =>
    refine editSound sound fun node here known => convertSound known ?_
    have converting := meets may here
    simp only [Bool.and_eq_true, decide_eq_true_eq] at converting
    exact converting.1
  | arrive i =>
    intro node mem
    rcases List.mem_append.mp mem with before | later
    · exact sound node (List.mem_of_mem_take before)
    · rcases List.mem_cons.mp later with rfl | after
      · exact freshSound
      · exact sound node (List.mem_of_mem_drop after)
  | depart i busy => exact fun node mem => sound node (List.mem_of_mem_eraseIdx mem)
  | destroyDeferred i => exact sound
  | fade i out =>
    refine editSound sound fun node _ known => ?_
    exact ⟨known.empty, known.shown, known.charged, known.params, known.freed, known.decoded⟩
  | draw i steady => exact editSound sound fun node here known => drawSound steady known (meets may here)
  | free i freed => exact editSound sound fun node _ _ => freeSound
  | reload i =>
    refine editSound sound fun node here known => ?_
    obtain ⟨idle, hidden⟩ := known.freed (meets may here)
    refine ⟨known.empty, fun up => ?_, known.charged, known.params, fun gone => (nomatch gone), fun waiting => ?_⟩
    · exact absurd (hidden.symm.trans up) Bool.false_ne_true
    · simp [awaits] at waiting
  | attributeChange =>
    intro node mem
    obtain ⟨old, there, rfl⟩ := List.mem_map.mp mem
    exact changeSound (sound old there)

theorem soundInductive : Inductive (system.under StepSound) fun w => ListSound w.renderList where
  initial := by
    rintro _ rfl node mem
    cases mem
  step := by
    rintro w a _ sound ⟨step, may, rfl⟩
    exact performSound sound may step

-- The bytes of all buffers, put off or not.
def allHeld (w : World) : Nat := heldBytes w.renderList + heldBytes w.deferredDestroy

-- A node is charged what its buffers were given, sixteen bytes more once a steady draw has dropped its params;
-- and a frame that starts within the budget ends within it.
theorem budgetKept {w : World} (reach : Reachable (system.under StepSound) w) :
    (∀ node ∈ w.renderList, node.uploaded = true →
      held node ≤ node.gpuMemorySize ∧ (node.gpuMemorySize = held node ↔ node.paramsBuffer ≠ none)) ∧
    heldBytes w.renderList ≤ scannedGpuMemory w.renderList ∧
    ∀ p : Frame, Allowed w (.frame p) → StepSound w (.frame p) → allHeld w + p.virtualGpuUsed ≤ p.gpuMemoryBudget →
      allHeld (perform w (.frame p)) + p.virtualGpuUsed ≤ p.gpuMemoryBudget := by
  have sound := reachableInvariant soundInductive reach
  refine ⟨fun node mem up => chargeExact (sound node mem) up, heldScanned sound, fun p may step within => ?_⟩
  have accounted := frameAccounted sound may step.2
  have apart := step.1
  unfold allHeld at within ⊢
  change heldBytes (processIoAndUpload p w.renderList).nodes + heldBytes w.deferredDestroy + p.virtualGpuUsed ≤ _
  rcases accounted.within with same | fits
  · omega
  · omega

-- Two nodes of a hundred points with one byte of intensity each, loaded one after the other: at the second, what the
-- first is charged and what the second is estimated at are within the budget.
def budgeted (stretch : Bool) (i : Nat) (order : List Nat) : Frame := ⟨3300, 1000000, 0, stretch, [i], [i], order⟩

def hundredPoints : LoadedNodeData := ⟨true, 1200, 100, .u8, 1, true, 100, 100⟩

def decoded (stretch : Bool) : List Action :=
  [.arrive 0, .frame (budgeted stretch 0 []), .frame (budgeted stretch 0 []), .convert 0 hundredPoints,
    .frame (budgeted stretch 0 [0]), .arrive 1, .frame (budgeted stretch 1 []), .frame (budgeted stretch 1 []),
    .convert 1 hundredPoints]

def awaiting (stretch : Bool) : World := (decoded stretch).foldl perform initial

def uploadSecond (stretch : Bool) : Frame := budgeted stretch 1 [1]

theorem budgetKeptRaw : scannedGpuMemory (perform (awaiting false) (.frame (uploadSecond false))).renderList = 2960 ∧
    allHeld (perform (awaiting false) (.frame (uploadSecond false))) + 0 ≤ 3300 := by
  have all : AllAllowed (fun w a => StepSound w a ∧ Allowed w a) perform initial (decoded false) := by decide
  have kept := (budgetKept (reachableAllowed all)).2.2 (uploadSecond false)
  exact ⟨by decide, kept (by decide) (by decide) (by decide)⟩

theorem normalisedOverBudget : Reachable system (awaiting true) ∧ Allowed (awaiting true) (.frame (uploadSecond true)) ∧
    allHeld (awaiting true) + 0 ≤ 3300 ∧
    ¬allHeld (perform (awaiting true) (.frame (uploadSecond true))) + 0 ≤ 3300 ∧
    scannedGpuMemory (perform (awaiting true) (.frame (uploadSecond true))).renderList = 2960 ∧
    heldBytes (perform (awaiting true) (.frame (uploadSecond true))).renderList = 3560 := by
  have all : AllAllowed (fun w a => True ∧ Allowed w a) perform initial (decoded true) := by decide
  exact ⟨reachableUnder (reachableAllowed all), by decide, by decide, by decide, by decide, by decide⟩

end Dewfall.GpuBudget
