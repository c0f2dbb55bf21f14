import Dewfall.Converter.TreeHandler
import Dewfall.General.Holdings

/-! Accounts of the blobs that checkpoints free. A location stands for one allocation as often as it was
allocated. The blobs of a failed checkpoint itself were never in use and are not superseded; whether a
map discards a unit once is a matter of the trees. -/
namespace Dewfall.FreedLocations
open General General.Holdings General.Transition StorageMap TreeHandler

def pendingDiscards (r : Registry) : List Location := r.slots.flatMap Slot.discards

def inFlight : Chain → List Location
  | .writingTrees taken => taken.flatMap Taken.discards
  | .writingRegistry old _ => old
  | .writingIndex old _ _ _ => old
  | .idle | .committed => []

-- What a later commit is to free.
def pending (w : World) : List Location := pendingDiscards w.registry ++ inFlight w.chain

def current (r : Registry) : List Location := r.slots.flatMap Slot.superseded

def registryBlob : Chain → List Location
  | .writingIndex _ _ location _ => [location]
  | _ => []

def inUse (w : World) : List Location := w.metadata ++ registryBlob w.chain ++ current w.registry

-- Each retirement of a location is pending or has been freed by one commit, and a blob of the checkpoints
-- is retired at most as often as it was allocated. The next checkpoint takes all the trees have discarded.
structure FreedOnce (w : World) : Prop where
  accounted : ∀ l, w.freed.flatten.count l + (pending w).count l = w.discarded.count l + w.superseded.count l
  supersededOnce : ∀ l, w.superseded.count l + (w.metadata ++ current w.registry).count l ≤ w.written.count l
  next : pendingDiscards (serializeTrees w []).registry = []

def toFree : Chain → Option (List Location)
  | .writingIndex old _ _ _ => some old
  | _ => none

-- An index write fails only where its checkpoint had nothing to free.
def StepSound (w : World) : Action → Prop
  | .indexWritten _ ok => ok = false → ∀ old ∈ toFree w.chain, old = []
  | _ => True

instance (w a) : Decidable (StepSound w a) := by
  apply TreeHandler.Action.casesOn (motive := fun a => Decidable (StepSound w a)) a
  all_goals
    intros
    dsimp only [StepSound]
    infer_instance

/-! ## Slots -/

def shape (slots : List Slot) : List Bool := slots.map Slot.isUnloaded

def Ready (slots : List Slot) : Prop := ∀ s ∈ slots, s.discards ≠ [] → s.dirty = true

def Loaded (slots : List Slot) (taken : List Taken) : Prop := ∀ t ∈ taken, (shape slots)[t.tree]? = some false

theorem shapeModify {slots : List Slot} {i} {f : Slot → Slot} (same : ∀ s, (f s).isUnloaded = s.isUnloaded) :
    shape (slots.modify i f) = shape slots := by
  refine List.ext_getElem? fun k => ?_
  simp only [shape, List.getElem?_map, List.getElem?_modify]
  cases slots[k]? with
  | none => rfl
  | some s =>
    simp only [Option.map_eq_map, Option.map_some]
    split
    · rw [same]
    · rfl

theorem loadedSome {s : Slot} (loaded : s.isUnloaded = false) : ∃ t, s.tree = some t := by
  cases tree : s.tree with
  | none => simp [Slot.isUnloaded, tree] at loaded
  | some t => exact ⟨t, rfl⟩

theorem loadedTree {slots taken t} (loaded : Loaded slots taken) (mem : t ∈ taken) :
    ∃ s tree, slots[t.tree]? = some s ∧ s.tree = some tree := by
  have here := loaded t mem
  simp only [shape, List.getElem?_map, Option.map_eq_some_iff] at here
  obtain ⟨s, there, isLoaded⟩ := here
  obtain ⟨tree, some_⟩ := loadedSome isLoaded
  exact ⟨s, tree, there, some_⟩

theorem readyModify {slots : List Slot} {i} {f : Slot → Slot} (ready : Ready slots)
    (keeps : ∀ s, (f s).discards ≠ [] → (f s).dirty = true) : Ready (slots.modify i f) := by
  intro s mem
  rcases memModify mem with old | ⟨before, -, rfl⟩
  · exact ready s old
  · exact keeps before

theorem dirtyOf {s : Slot} {f : Tree → Tree} (dirty : ∀ t, (f t).isDirty = true) (some_ : s.tree.isSome) :
    ({ s with tree := s.tree.map f } : Slot).dirty = true := by
  obtain ⟨t, here⟩ := Option.isSome_iff_exists.mp some_
  simp [Slot.dirty, here, dirty]

theorem discardsSome {s : Slot} (some_ : s.discards ≠ []) : s.tree.isSome := by
  cases here : s.tree with
  | none => simp [Slot.discards, here] at some_
  | some t => rfl

/-! ## Marking, taking and restoring -/

theorem markSame (mutableDataset : Bool) (pass : Nat) (s : Slot) :
    (s.mark mutableDataset pass).tree = s.tree ∧ (s.mark mutableDataset pass).location = s.location := by
  unfold Slot.mark
  split
  · exact ⟨rfl, rfl⟩
  · split <;> exact ⟨rfl, rfl⟩

theorem markFinalSame (r : Registry) (pass : Option Nat) :
    pendingDiscards (markFinal r pass) = pendingDiscards r ∧ current (markFinal r pass) = current r ∧
      shape (markFinal r pass).slots = shape r.slots ∧
      (Ready r.slots → Ready (markFinal r pass).slots) := by
  cases pass with
  | none => exact ⟨rfl, rfl, rfl, id⟩
  | some pass =>
    refine ⟨flatMapMap fun s => ?_, flatMapMap fun s => ?_, ?_, fun ready s mem => ?_⟩
    · rw [Slot.discards, (markSame _ _ s).1, Slot.discards]
    · rw [Slot.superseded, (markSame _ _ s).2, Slot.superseded]
    · simp only [shape, markFinal, List.map_map]
      refine List.map_congr_left fun s _ => ?_
      simp only [Function.comp, Slot.isUnloaded, (markSame _ _ s).1]
    · obtain ⟨before, known, rfl⟩ := List.mem_map.mp mem
      have old := ready before known
      rwa [Slot.discards, Slot.dirty, (markSame _ _ before).1]

theorem takeDiscards (s : Slot) : s.take.discards = [] := by
  cases here : s.tree <;> simp [Slot.take, Slot.discards, here]

theorem takeUnloaded (s : Slot) : s.take.isUnloaded = s.isUnloaded := by
  cases here : s.tree <;> simp [Slot.take, Slot.isUnloaded, here]

theorem dirtyLoaded {s : Slot} (dirty : s.dirty = true) : s.isUnloaded = false := by
  cases here : s.tree with
  | none => simp [Slot.dirty, here] at dirty
  | some t => simp [Slot.isUnloaded, here]

structure Serialized (first : Nat) (slots after : List Slot) (taken : List Taken) : Prop where
  discards : ∀ l, (after.flatMap Slot.discards).count l + (taken.flatMap Taken.discards).count l =
    (slots.flatMap Slot.discards).count l
  superseded : after.flatMap Slot.superseded = slots.flatMap Slot.superseded
  shape : shape after = shape slots
  ready : Ready slots → Ready after
  taken : ∀ t ∈ taken, first ≤ t.tree ∧ (FreedLocations.shape slots)[t.tree - first]? = some false

theorem readyCons {s : Slot} {slots} : Ready (s :: slots) ↔ (s.discards ≠ [] → s.dirty = true) ∧ Ready slots :=
  List.forall_mem_cons

theorem takenLater {first : Nat} {s : Slot} {slots : List Slot} {t : Taken}
    (later : first + 1 ≤ t.tree ∧ (shape slots)[t.tree - (first + 1)]? = some false) :
    first ≤ t.tree ∧ (shape (s :: slots))[t.tree - first]? = some false := by
  obtain ⟨bound, here⟩ := later
  have step : t.tree - first = t.tree - (first + 1) + 1 := by omega
  refine ⟨by omega, ?_⟩
  rw [step]
  exact here

theorem serializeFromSerialized (failing : List Nat) (first : Nat) (slots : List Slot) :
    Serialized first slots (serializeFrom failing first slots).1 (serializeFrom failing first slots).2.1 := by
  induction slots generalizing first with
  | nil => exact ⟨fun _ => rfl, rfl, rfl, id, fun t mem => absurd mem List.not_mem_nil⟩
  | cons s rest ih =>
    have later := ih (first + 1)
    unfold serializeFrom
    generalize serializeFrom failing (first + 1) rest = result at later ⊢
    obtain ⟨after, taken, ok⟩ := result
    dsimp only at later
    split
    · rename_i dirty
      split
      · exact ⟨fun _ => by simp, rfl, rfl, id, fun t mem => absurd mem List.not_mem_nil⟩
      · refine ⟨fun l => ?_, ?_, ?_, fun ready => ?_, fun t mem => ?_⟩
        · have counted := later.discards l
          simp only [List.flatMap_cons, List.count_append, takeDiscards, List.count_nil]
          omega
        · simp only [List.flatMap_cons, later.superseded]
          rfl
        · have same := later.shape
          simp only [shape, List.map_cons, takeUnloaded] at same ⊢
          rw [same]
        · refine readyCons.mpr ⟨fun some_ => absurd (takeDiscards s) some_, ?_⟩
          exact later.ready (readyCons.mp ready).2
        · rcases List.mem_cons.mp mem with rfl | rest
          · refine ⟨Nat.le_refl _, ?_⟩
            simp [shape, dirtyLoaded dirty]
          · exact takenLater (later.taken t rest)
    · refine ⟨fun l => ?_, ?_, ?_, fun ready => ?_, fun t mem => takenLater (later.taken t mem)⟩
      · have counted := later.discards l
        simp only [List.flatMap_cons, List.count_append]
        omega
      · simp only [List.flatMap_cons, later.superseded]
      · have same := later.shape
        simp only [shape, List.map_cons] at same ⊢
        rw [same]
      · exact readyCons.mpr ⟨(readyCons.mp ready).1, later.ready (readyCons.mp ready).2⟩

theorem serializeFromAll (first : Nat) {slots : List Slot} (ready : Ready slots) :
    (serializeFrom [] first slots).2.2 = true ∧
      (serializeFrom [] first slots).1.flatMap Slot.discards = [] := by
  induction slots generalizing first with
  | nil => exact ⟨rfl, rfl⟩
  | cons s rest ih =>
    obtain ⟨fine, none_⟩ := ih (first + 1) (readyCons.mp ready).2
    unfold serializeFrom
    split
    · refine ⟨fine, ?_⟩
      simp only [List.not_mem_nil, if_false, List.flatMap_cons, takeDiscards, List.nil_append]
      exact none_
    · rename_i clean
      have empty : s.discards = [] := by
        by_contra some_
        exact clean ((readyCons.mp ready).1 some_)
      refine ⟨fine, ?_⟩
      simp only [List.flatMap_cons, empty, List.nil_append]
      exact none_

theorem restoreUnloaded (discards : List Location) (s : Slot) : (s.restore discards).isUnloaded = s.isUnloaded := by
  cases here : s.tree <;> simp [Slot.restore, Slot.isUnloaded, here]

theorem restoreReady (discards : List Location) (s : Slot) (some_ : (s.restore discards).discards ≠ []) :
    (s.restore discards).dirty = true := by
  have known := discardsSome some_
  refine dirtyOf (fun _ => rfl) ?_
  simpa [Slot.restore] using known

structure Restored (slots after : List Slot) (taken : List Taken) : Prop where
  discards : ∀ l, (after.flatMap Slot.discards).count l =
    (slots.flatMap Slot.discards).count l + (taken.flatMap Taken.discards).count l
  superseded : after.flatMap Slot.superseded = slots.flatMap Slot.superseded
  shape : shape after = shape slots
  ready : Ready slots → Ready after

theorem restoreRestored {taken : List Taken} {slots : List Slot} (loaded : Loaded slots taken) :
    Restored slots (restoreFailedSerialize taken slots) taken := by
  induction taken generalizing slots with
  | nil => exact ⟨fun _ => rfl, rfl, rfl, id⟩
  | cons t rest ih =>
    obtain ⟨s, tree, here, some_⟩ := loadedTree loaded List.mem_cons_self
    have sameShape : shape (slots.modify t.tree (Slot.restore t.discards)) = shape slots :=
      shapeModify (restoreUnloaded t.discards)
    have still : Loaded (slots.modify t.tree (Slot.restore t.discards)) rest := fun other mem => by
      rw [sameShape]
      exact loaded other (List.mem_cons_of_mem _ mem)
    have later := ih still
    refine ⟨fun l => ?_, ?_, later.shape.trans sameShape, fun ready => ?_⟩
    · have one := countModify Slot.discards (Slot.restore t.discards) here l
      have gained : (s.restore t.discards).discards = s.discards ++ t.discards := by
        simp [Slot.restore, Slot.discards, some_, InputStorageMap.restoreDiscarded]
      have counted := later.discards l
      simp only [gained, List.count_append] at one
      simp only [List.flatMap_cons, List.count_append]
      simp only [restoreFailedSerialize, List.foldl_cons] at counted ⊢
      omega
    · exact later.superseded.trans (flatMapModify fun _ _ => rfl)
    · exact later.ready (readyModify ready (restoreReady t.discards))

theorem replaceReplaced (pairs : List (Nat × Location)) (slots : List Slot) :
    (replaceLocations pairs slots).1.flatMap Slot.discards = slots.flatMap Slot.discards ∧
      shape (replaceLocations pairs slots).1 = shape slots ∧
      (Ready slots → Ready (replaceLocations pairs slots).1) ∧
      ∀ l, ((replaceLocations pairs slots).1.flatMap Slot.superseded).count l +
        (replaceLocations pairs slots).2.count l ≤
          (slots.flatMap Slot.superseded).count l + (pairs.map Prod.snd).count l := by
  induction pairs generalizing slots with
  | nil => exact ⟨rfl, rfl, id, fun l => by simp [replaceLocations]⟩
  | cons pair rest ih =>
    obtain ⟨i, location⟩ := pair
    obtain ⟨discards, sameShape, ready, counted⟩ := ih (slots.modify i fun s => { s with location := location })
    refine ⟨discards.trans (flatMapModify fun _ _ => rfl), sameShape.trans (shapeModify fun _ => rfl), ?_, ?_⟩
    · intro before
      refine ready fun s mem => ?_
      rcases memModify mem with old | ⟨b, known, rfl⟩
      · exact before s old
      · exact before b known
    · intro l
      have after := counted l
      have newest (s : Slot) :
          (Slot.superseded { s with location := location }).count l ≤ [location].count l := by
        simp only [Slot.superseded]
        split
        · exact Nat.le_refl _
        · exact Nat.zero_le _
      have split : (location :: rest.map Prod.snd).count l = [location].count l + (rest.map Prod.snd).count l := by
        rw [← List.singleton_append, List.count_append]
      simp only [replaceLocations, List.map_cons, List.count_append, split]
      cases here : slots[i]? with
      | none =>
        rw [modifyMissing here] at after ⊢
        simp only [Option.map_none, Option.getD_none, List.count_nil]
        omega
      | some s =>
        have one := countModify Slot.superseded (fun s => { s with location := location }) here l
        have bound := newest s
        simp only [Option.map_some, Option.getD_some]
        omega

-- What insertion, collapse and LOD do to a tree's map only adds to what it has discarded.
theorem mapKeepsDiscarded (m : InputStorageMap) (id : InputId) (attributesId : Nat) (storage : List Location) :
    m.discarded <+: (m.addStorage id attributesId storage).discarded ∧
      (∀ after ∈ m.addRef id, m.discarded <+: after.discarded) ∧
      (∀ after ∈ m.dereference id, m.discarded <+: after.1.discarded) ∧
      (∀ after ∈ m.dereferenceDiscard id, m.discarded <+: after.discarded) ∧
      m.discarded <+: (m.restoreDiscarded storage).discarded := by
  refine ⟨?_, fun after here => ?_, fun after here => ?_, fun after here => ?_, List.prefix_append _ _⟩
  · unfold InputStorageMap.addStorage
    split
    · exact List.prefix_rfl
    · exact List.prefix_append _ _
  · obtain ⟨value, -, rfl⟩ := Option.map_eq_some_iff.mp here
    exact List.prefix_rfl
  · obtain ⟨value, -, rfl⟩ := Option.map_eq_some_iff.mp here
    exact List.prefix_rfl
  · obtain ⟨value, -, rfl⟩ := Option.map_eq_some_iff.mp here
    dsimp only
    split
    · exact List.prefix_append _ _
    · exact List.prefix_rfl

/-! ## One step -/

def TakenLoaded (w : World) : Prop := ∀ taken, w.chain = .writingTrees taken → Loaded w.registry.slots taken

def Unloaded (r : Registry) : Prop := ∀ s ∈ r.slots, s.tree = none

-- The registries a chain and the index hold have no trees.
def Stored (w : World) : Prop :=
  (∀ r readable, w.index = some (r, readable) → Unloaded r) ∧
    match w.chain with
    | .writingRegistry _ snapshot | .writingIndex _ snapshot _ _ => Unloaded snapshot
    | _ => True

structure Invariant (w : World) : Prop where
  accounted : ∀ l, w.freed.flatten.count l + (pending w).count l = w.discarded.count l + w.superseded.count l
  supersededOnce : ∀ l, w.superseded.count l + (inUse w).count l ≤ w.written.count l
  ready : Ready w.registry.slots
  taken : TakenLoaded w
  stored : Stored w

-- A step on the slots that moves no location.
theorem quietInvariant {w : World} {registry : Registry} {passWatermark pendingPassWatermark : Option Nat}
    {serializeWanted : Bool} (inv : Invariant w)
    (discards : pendingDiscards registry = pendingDiscards w.registry)
    (locations : current registry = current w.registry)
    (kept : ∀ k : Nat, (shape w.registry.slots)[k]? = some false → (shape registry.slots)[k]? = some false)
    (ready : Ready registry.slots) :
    Invariant { w with
      registry := registry, passWatermark := passWatermark, pendingPassWatermark := pendingPassWatermark
      serializeWanted := serializeWanted } := by
  refine ⟨fun l => ?_, fun l => ?_, ready, fun taken chain t mem => ?_, inv.stored⟩
  · have known := inv.accounted l
    rwa [pending, ← discards] at known
  · have known := inv.supersededOnce l
    rwa [inUse, ← locations] at known
  · exact kept _ (inv.taken taken chain t mem)

theorem uploadSame (trees : List (Nat × Nat)) (slots : List Slot) :
    (markUploaded trees slots).flatMap Slot.discards = slots.flatMap Slot.discards ∧
      (markUploaded trees slots).flatMap Slot.superseded = slots.flatMap Slot.superseded ∧
      shape (markUploaded trees slots) = shape slots ∧ (Ready slots → Ready (markUploaded trees slots)) ∧
      ((∀ s ∈ slots, s.tree = none) → ∀ s ∈ markUploaded trees slots, s.tree = none) := by
  induction trees generalizing slots with
  | nil => exact ⟨rfl, rfl, rfl, id, id⟩
  | cons t rest ih =>
    obtain ⟨discards, superseded, same, ready, bare⟩ := ih (slots.modify t.1 (Slot.upload t.2))
    refine ⟨discards.trans (flatMapModify fun _ _ => rfl), superseded.trans (flatMapModify fun _ _ => rfl),
      same.trans (shapeModify fun _ => rfl), fun before => ready fun s mem => ?_, fun before => bare fun s mem => ?_⟩
    all_goals
      rcases memModify mem with old | ⟨b, known, rfl⟩
      · exact before s old
      · exact before b known

theorem addTreeInvariant {w : World} (inv : Invariant w) (mortonMax : Nat) (storageMap : InputStorageMap) :
    Invariant (addTree w mortonMax storageMap) := by
  have slots : (addTree w mortonMax storageMap).registry.slots = w.registry.slots ++
      [⟨some ⟨mortonMax, true, false, storageMap⟩, .building, none, zeroLocation⟩] := rfl
  have gained : pendingDiscards (addTree w mortonMax storageMap).registry =
      pendingDiscards w.registry ++ storageMap.discarded := by
    simp [pendingDiscards, slots, Slot.discards]
  have same : current (addTree w mortonMax storageMap).registry = current w.registry := by
    simp [current, slots, Slot.superseded, zeroLocation]
  refine ⟨fun l => ?_, fun l => ?_, ?_, fun taken chain t mem => ?_, inv.stored⟩
  · have known := inv.accounted l
    rw [pending, gained]
    simp only [pending, List.count_append] at known
    simp only [addTree, List.count_append]
    omega
  · have known := inv.supersededOnce l
    rw [inUse, same]
    exact known
  · rw [slots]
    intro s mem
    rcases List.mem_append.mp mem with old | new
    · exact inv.ready s old
    · rw [List.mem_singleton.mp new]
      exact fun _ => rfl
  · have here := inv.taken taken chain t mem
    obtain ⟨short, -⟩ := List.getElem?_eq_some_iff.mp here
    rw [slots]
    simp only [shape, List.map_append] at here short ⊢
    rwa [List.getElem?_append_left short]

theorem changeTreeInvariant {w : World} (inv : Invariant w) {i s} {storageMap : InputStorageMap}
    {leavesCollapsed} (here : w.registry.slots[i]? = some s) (some_ : s.isUnloaded = false)
    (more : s.discards <+: storageMap.discarded) : Invariant (changeTree w i storageMap leavesCollapsed) := by
  obtain ⟨t, loaded⟩ := loadedSome some_
  have changed : (s.change storageMap leavesCollapsed).discards = storageMap.discarded := by
    simp [Slot.change, Slot.discards, loaded]
  obtain ⟨fresh, whole⟩ := more
  refine ⟨fun l => ?_, fun l => ?_, ?_, fun taken chain u mem => ?_, inv.stored⟩
  · have one := countModify Slot.discards (Slot.change storageMap leavesCollapsed) here l
    have known := inv.accounted l
    rw [changed, ← whole, List.count_append] at one
    simp only [pending, pendingDiscards, List.count_append] at known
    have gained : (changeTree w i storageMap leavesCollapsed).discarded = w.discarded ++ fresh := by
      simp only [changeTree, discardsOf, here, Option.map_some, Option.getD_some, ← whole, List.drop_left]
    simp only [gained, pending, pendingDiscards, List.count_append]
    simp only [changeTree, Registry.modify, ← whole] at one ⊢
    omega
  · have same : current (changeTree w i storageMap leavesCollapsed).registry = current w.registry :=
      flatMapModify fun _ _ => rfl
    have known := inv.supersededOnce l
    rw [inUse, same]
    exact known
  · refine readyModify inv.ready fun b some_ => ?_
    refine dirtyOf (fun _ => rfl) ?_
    simpa [Slot.change] using discardsSome some_
  · rw [changeTree, Registry.modify, shapeModify]
    · exact inv.taken taken chain u mem
    · intro b
      cases tree : b.tree <;> simp [Slot.change, Slot.isUnloaded, tree]

theorem loadTreeInvariant {w : World} (inv : Invariant w) {i s} (here : w.registry.slots[i]? = some s)
    (bare : s.isUnloaded = true) {mortonMax leavesCollapsed map} :
    Invariant (loadTree w i mortonMax leavesCollapsed map) := by
  refine quietInvariant inv (flatMapModify fun b there => ?_) (flatMapModify fun _ _ => rfl) (fun k loaded => ?_)
    (readyModify inv.ready fun b some_ => absurd rfl some_)
  · cases here.symm.trans there
    simp [Slot.discards, Option.isNone_iff_eq_none.mp bare]
  · simp only [shape, Registry.modify, List.getElem?_map, List.getElem?_modify] at loaded ⊢
    cases there : w.registry.slots[k]? with
    | none => simp [there] at loaded
    | some b =>
      simp only [there, Option.map_some, Option.map_eq_map] at loaded ⊢
      split
      · rfl
      · exact loaded

theorem isIdle {chain : Chain} (idle : chain.isIdle = true) : chain = .idle := by
  cases chain <;> first | rfl | contradiction

theorem serializeTreesInvariant {w : World} (inv : Invariant w) (idle : w.chain = .idle) (failing : List Nat) :
    Invariant (serializeTrees w failing) := by
  obtain ⟨markedDiscards, markedCurrent, markedShape, markedReady⟩ := markFinalSame w.registry w.passWatermark
  have done := serializeFromSerialized failing 0 (markFinal w.registry w.passWatermark).slots
  unfold serializeTrees
  dsimp only
  generalize markFinal w.registry w.passWatermark = marked at *
  generalize serializeFrom failing 0 marked.slots = result at done ⊢
  obtain ⟨slots, taken, ok⟩ := result
  dsimp only at done ⊢
  have known (l) : w.freed.flatten.count l + (marked.slots.flatMap Slot.discards).count l =
      w.discarded.count l + w.superseded.count l := by
    have before := inv.accounted l
    rw [pending, idle, inFlight, List.append_nil, ← markedDiscards] at before
    exact before
  have used (l) : w.superseded.count l + (w.metadata ++ marked.slots.flatMap Slot.superseded).count l ≤
      w.written.count l := by
    have before := inv.supersededOnce l
    simp only [inUse, idle, registryBlob, List.append_nil, ← markedCurrent] at before
    exact before
  have loaded : Loaded slots taken := fun t mem => by
    rw [done.shape]
    exact (done.taken t mem).2
  cases ok with
  | true =>
    refine ⟨fun l => ?_, fun l => ?_, done.ready (markedReady inv.ready), fun other chain => ?_,
      inv.stored.1, trivial⟩
    · have counted := done.discards l
      have before := known l
      simp only [pending, pendingDiscards, inFlight, if_true, List.count_append]
      omega
    · have before := used l
      rw [← done.superseded] at before
      simpa [inUse, current, registryBlob] using before
    · cases chain
      exact loaded
  | false =>
    have back := restoreRestored loaded
    refine ⟨fun l => ?_, fun l => ?_, back.ready (done.ready (markedReady inv.ready)), fun other chain => ?_,
      inv.stored.1, trivial⟩
    · have counted := done.discards l
      have restored := back.discards l
      have before := known l
      simp only [pending, pendingDiscards, inFlight, Bool.false_eq_true, if_false, List.append_nil]
      omega
    · have before := used l
      rw [← done.superseded, ← back.superseded] at before
      simpa [inUse, current, registryBlob] using before
    · cases chain

theorem serializedUnloaded (r : Registry) : Unloaded r.serialized := by
  intro s mem
  obtain ⟨before, -, rfl⟩ := List.mem_map.mp mem
  rfl

theorem zipSecond {ids : List Nat} {locations : List Location} (long : locations.length = ids.length) :
    (ids.zip locations).map Prod.snd = locations :=
  List.map_snd_zip (by omega)

theorem treesWrittenInvariant {w : World} (inv : Invariant w) {taken locations ok}
    (chain : w.chain = .writingTrees taken) (long : locations.length = taken.length) :
    Invariant (treesWritten w taken locations ok) := by
  have loaded := inv.taken taken chain
  have known (l) := inv.accounted l
  have used (l) := inv.supersededOnce l
  simp only [pending, pendingDiscards, chain, inFlight, List.count_append] at known
  simp only [inUse, current, chain, registryBlob, List.append_nil, List.count_append] at used
  cases ok with
  | false =>
    have back := restoreRestored loaded
    refine ⟨fun l => ?_, fun l => ?_, back.ready inv.ready, fun other chain => ?_, inv.stored.1, trivial⟩
    · have before := known l
      have restored := back.discards l
      simp only [treesWritten, Bool.false_eq_true, if_false, pending, pendingDiscards, inFlight, List.append_nil]
      omega
    · have before := used l
      simp only [treesWritten, Bool.false_eq_true, if_false, inUse, current, registryBlob, List.append_nil,
        back.superseded, List.count_append]
      omega
    · cases chain
  | true =>
    obtain ⟨discards, -, ready, counted⟩ :=
      replaceReplaced ((taken.map Taken.tree).zip locations) w.registry.slots
    rw [zipSecond (by simpa using long)] at counted
    refine ⟨fun l => ?_, fun l => ?_, ready inv.ready, fun other chain => ?_, inv.stored.1, serializedUnloaded _⟩
    · have before := known l
      simp only [treesWritten, if_true, pending, pendingDiscards, inFlight, discards, List.count_append]
      omega
    · have before := used l
      have more := counted l
      simp only [treesWritten, if_true, inUse, current, registryBlob, List.append_nil, List.count_append]
      omega
    · cases chain

theorem registryWrittenInvariant {w : World} (inv : Invariant w) {old snapshot location ok}
    (chain : w.chain = .writingRegistry old snapshot) :
    Invariant (registryWritten w old snapshot location ok) := by
  have kept := inv.stored.2
  rw [chain] at kept
  refine ⟨fun l => ?_, fun l => ?_, inv.ready, fun other chain => ?_, inv.stored.1, kept⟩
  · have before := inv.accounted l
    simp only [pending, chain, inFlight] at before
    exact before
  · have before := inv.supersededOnce l
    simp only [inUse, chain, registryBlob, List.append_nil, List.count_append] at before
    simp only [registryWritten, inUse, registryBlob, List.count_append]
    omega
  · cases chain

theorem indexWrittenInvariant {w : World} (inv : Invariant w) {old snapshot location readable metadata ok}
    (chain : w.chain = .writingIndex old snapshot location readable) (sound : ok = false → old = []) :
    Invariant (indexWritten w old snapshot location readable metadata ok) := by
  have kept := inv.stored.2
  have known (l) := inv.accounted l
  have used (l) := inv.supersededOnce l
  rw [chain] at kept
  simp only [pending, chain, inFlight, List.count_append] at known
  simp only [inUse, chain, registryBlob, List.count_append] at used
  cases ok with
  | false =>
    refine ⟨fun l => ?_, fun l => ?_, inv.ready, fun other chain => ?_, inv.stored.1, trivial⟩
    · have before := known l
      rw [sound rfl, List.count_nil] at before
      simp only [indexWritten, Bool.false_eq_true, if_false, pending, inFlight, List.append_nil]
      omega
    · have before := used l
      simp only [indexWritten, Bool.false_eq_true, if_false, inUse, registryBlob, List.append_nil,
        List.count_append]
      omega
    · cases chain
  | true =>
    refine ⟨fun l => ?_, fun l => ?_, inv.ready, fun other chain => ?_, ?_, trivial⟩
    · have before := known l
      simp only [indexWritten, if_true, pending, inFlight, List.append_nil, List.flatten_append,
        List.flatten_singleton, List.count_append]
      omega
    · have before := used l
      have part : (w.metadata.filter fun l => 0 < l.offset).count l ≤ w.metadata.count l :=
        List.filter_sublist.count_le l
      have first : (location :: metadata).count l = [location].count l + metadata.count l := by
        rw [← List.singleton_append, List.count_append]
      simp only [indexWritten, if_true, inUse, registryBlob, List.append_nil, List.count_append, first]
      omega
    · cases chain
    · rintro r readable' ⟨⟩
      exact kept

theorem provisionalSame (band : Nat) (s : Slot) :
    (s.provisional band).tree = s.tree ∧ (s.provisional band).location = s.location := by
  unfold Slot.provisional
  split <;> exact ⟨rfl, rfl⟩

theorem clearSame (s : Slot) : s.clearProvisional.tree = s.tree ∧ s.clearProvisional.location = s.location := by
  unfold Slot.clearProvisional
  split <;> exact ⟨rfl, rfl⟩

-- Slots that keep their trees and locations keep all that is counted.
theorem mapSame {f : Slot → Slot} (same : ∀ s, (f s).tree = s.tree ∧ (f s).location = s.location)
    (slots : List Slot) : (slots.map f).flatMap Slot.discards = slots.flatMap Slot.discards ∧
      (slots.map f).flatMap Slot.superseded = slots.flatMap Slot.superseded ∧
      shape (slots.map f) = shape slots ∧ (Ready slots → Ready (slots.map f)) := by
  refine ⟨flatMapMap fun s => ?_, flatMapMap fun s => ?_, ?_, fun ready s mem => ?_⟩
  · rw [Slot.discards, (same s).1, Slot.discards]
  · rw [Slot.superseded, (same s).2, Slot.superseded]
  · simp only [shape, List.map_map]
    refine List.map_congr_left fun s _ => ?_
    simp only [Function.comp, Slot.isUnloaded, (same s).1]
  · obtain ⟨before, known, rfl⟩ := List.mem_map.mp mem
    have old := ready before known
    rwa [Slot.discards, Slot.dirty, (same before).1]

theorem emitBandJobInvariant {w : World} (inv : Invariant w) (chain : w.chain = .committed) :
    Invariant { emitBandJob w with chain := .idle } := by
  obtain ⟨discards, superseded, -, ready⟩ := mapSame (provisionalSame w.nextBandId) w.registry.slots
  have known (l) := inv.accounted l
  have used (l) := inv.supersededOnce l
  simp only [pending, pendingDiscards, chain, inFlight] at known
  simp only [inUse, current, chain, registryBlob] at used
  unfold emitBandJob
  split
  · exact ⟨known, used, inv.ready, fun _ chain => (nomatch chain), inv.stored.1, trivial⟩
  · dsimp only
    split
    · exact ⟨known, used, inv.ready, fun _ chain => (nomatch chain), inv.stored.1, trivial⟩
    · refine ⟨fun l => ?_, fun l => ?_, ready inv.ready, fun _ chain => (nomatch chain), inv.stored.1, trivial⟩
      · simp only [pending, pendingDiscards, inFlight]
        rw [show (bandJob w).bandId = w.nextBandId from rfl, discards]
        exact known l
      · simp only [inUse, current, registryBlob]
        rw [show (bandJob w).bandId = w.nextBandId from rfl, superseded]
        exact used l

theorem startInvariant (sink : Bool) : Invariant (start sink) := by
  refine ⟨fun _ => rfl, fun _ => Nat.le_refl _, fun s mem => ?_, fun _ chain => (nomatch chain),
    fun _ _ none_ => (nomatch none_), trivial⟩
  exact absurd mem List.not_mem_nil

theorem openRegistryInvariant {w : World} (inv : Invariant w) : Invariant (openRegistry w) := by
  unfold openRegistry
  split
  · exact startInvariant false
  · rename_i registry readable index
    have bare := inv.stored.1 registry readable index
    have none_ : registry.slots.flatMap Slot.discards = [] := by
      refine List.flatMap_eq_nil_iff.mpr fun s mem => ?_
      simp [Slot.discards, bare s mem]
    refine ⟨fun l => ?_, fun l => ?_, fun s mem some_ => ?_, fun _ chain => (nomatch chain), ?_, trivial⟩
    · simp [pending, pendingDiscards, none_, inFlight, start]
    · simp [inUse, current, registryBlob, start]
    · simp [Slot.discards, bare s mem] at some_
    · rintro r readable' ⟨⟩
      exact bare

theorem openCacheInvariant {w : World} (inv : Invariant w) (sink : Bool) : Invariant (openCache w sink) := by
  have opened : Invariant { openRegistry w with objects := w.objects, bucket := w.bucket } := by
    obtain ⟨accounted, once, ready, taken, stored⟩ := openRegistryInvariant inv
    exact ⟨accounted, once, ready, taken, stored⟩
  unfold openCache
  dsimp only
  split
  · generalize ({ openRegistry w with objects := w.objects, bucket := w.bucket } : World) = v at opened ⊢
    obtain ⟨discards, superseded, same, ready, -⟩ :=
      uploadSame (w.bucket.flatMap BandJob.members) v.registry.slots
    obtain ⟨cleared, moved, kept, still⟩ := mapSame clearSame
      (markUploaded (w.bucket.flatMap BandJob.members) v.registry.slots)
    have whole : Invariant { v with
        registry := { v.registry with slots := restoreUploadedTrees w.bucket v.registry.slots } } :=
      quietInvariant opened (cleared.trans discards) (moved.trans superseded)
      (fun k here => (congrArg (fun l : List Bool => l[k]?) (kept.trans same)).trans here)
      (still (ready opened.ready))
    exact ⟨whole.accounted, whole.supersededOnce, whole.ready, whole.taken, whole.stored⟩
  · exact opened

-- The uploader's bands are not looked at.
theorem uploaderInvariant {w : World} (inv : Invariant w) (queue waiting : List BandJob) (inFlight : Option BandJob) :
    Invariant { w with queue := queue, waiting := waiting, inFlight := inFlight } :=
  ⟨inv.accounted, inv.supersededOnce, inv.ready, inv.taken, inv.stored⟩

theorem handleBandInvariant {w : World} (inv : Invariant w) (job : BandJob) : Invariant (handleBand w job) := by
  unfold handleBand
  split
  · exact uploaderInvariant inv _ _ _
  · exact uploaderInvariant inv _ _ _

theorem handleFollowingInvariant {w : World} (inv : Invariant w) : Invariant (handleFollowing w) := by
  unfold handleFollowing
  split
  · exact inv
  · exact handleBandInvariant (uploaderInvariant inv _ _ _) _

theorem performInvariant {w : World} {a : Action} (inv : Invariant w) (allowed : Allowed w a)
    (sound : StepSound w a) : Invariant (perform w a) := by
  cases a with
  | addTree mortonMax storageMap => exact addTreeInvariant inv mortonMax storageMap
  | changeTree i storageMap leavesCollapsed =>
    obtain ⟨s, here, some_, more⟩ := allowed
    exact changeTreeInvariant inv here some_ more
  | loadTree i mortonMax leavesCollapsed map =>
    obtain ⟨s, here, bare⟩ := allowed
    exact loadTreeInvariant inv here bare
  | setMutable value => exact quietInvariant inv rfl rfl (fun _ here => here) inv.ready
  | lowerLodFloor floor => exact quietInvariant inv rfl rfl (fun _ here => here) inv.ready
  | generateLod max => exact quietInvariant inv rfl rfl (fun _ here => here) inv.ready
  | passConcluded => exact quietInvariant inv rfl rfl (fun _ here => here) inv.ready
  | requestCheckpoint => exact quietInvariant inv rfl rfl (fun _ here => here) inv.ready
  | serializeTrees failing => exact serializeTreesInvariant inv (isIdle allowed.2) failing
  | treesWritten locations ok =>
    simp only [perform]
    split
    · rename_i taken chain
      exact treesWrittenInvariant inv chain (allowed taken (by rw [chain]; rfl))
    · exact inv
  | registryWritten location ok =>
    simp only [perform]
    split
    · rename_i chain
      exact registryWrittenInvariant inv chain
    · exact inv
  | indexWritten metadata ok =>
    simp only [perform]
    split
    · rename_i chain
      exact indexWrittenInvariant inv chain fun failed => sound failed _ (by rw [chain]; rfl)
    · exact inv
  | emitBandJob =>
    simp only [perform]
    split
    · rename_i chain
      exact emitBandJobInvariant inv chain
    · exact inv
  | deliverBand =>
    simp only [perform]
    split
    · exact inv
    · exact handleBandInvariant (uploaderInvariant inv _ _ _) _
  | commitBand =>
    simp only [perform]
    split
    · exact inv
    · rename_i job _
      have committed : Invariant (commitBand { w with inFlight := none } job) :=
        ⟨inv.accounted, inv.supersededOnce, inv.ready, inv.taken, inv.stored⟩
      exact handleFollowingInvariant committed
  | markBandUploaded =>
    simp only [perform]
    split
    · exact inv
    · rename_i job rest _
      obtain ⟨discards, superseded, same, ready, -⟩ := uploadSame job.members w.registry.slots
      have whole : Invariant { w with
          registry := { w.registry with slots := markUploaded job.members w.registry.slots } } :=
        quietInvariant inv discards superseded (fun k here => by rw [same]; exact here) (ready inv.ready)
      exact ⟨whole.accounted, whole.supersededOnce, whole.ready, whole.taken, whole.stored⟩
  | openCache sink => exact openCacheInvariant inv sink

/-! ## Runs -/

theorem reachedInvariant {sink w} (reach : Reachable ((system sink).under StepSound) w) : Invariant w := by
  refine reachableInvariant ⟨?_, ?_⟩ reach
  · rintro w rfl
    exact startInvariant sink
  · rintro w a after inv ⟨sound, allowed, rfl⟩
    exact performInvariant inv allowed sound

theorem invariantNext {w : World} (inv : Invariant w) : pendingDiscards (serializeTrees w []).registry = [] := by
  obtain ⟨-, -, -, ready⟩ := markFinalSame w.registry w.passWatermark
  obtain ⟨fine, none_⟩ := serializeFromAll 0 (ready inv.ready)
  unfold serializeTrees
  dsimp only
  generalize serializeFrom [] 0 (markFinal w.registry w.passWatermark).slots = result at fine none_ ⊢
  obtain ⟨slots, taken, ok⟩ := result
  dsimp only at fine none_ ⊢
  rw [fine, if_pos rfl]
  exact none_

theorem retiredFreedOnce {sink w} (reach : Reachable ((system sink).under StepSound) w) : FreedOnce w := by
  have inv := reachedInvariant reach
  refine ⟨inv.accounted, fun l => ?_, invariantNext inv⟩
  have used := inv.supersededOnce l
  simp only [inUse, List.count_append] at used ⊢
  omega

def blob (offset : Nat) : Location := ⟨0, offset, 10⟩

def discarding (locations : List Location) : InputStorageMap := ⟨fun _ => none, locations⟩

def checkpoint (first : Nat) (indexOk : Bool) : List Action :=
  [.requestCheckpoint, .serializeTrees [], .treesWritten [blob first] true, .registryWritten (blob (first + 1)) true,
    .indexWritten [blob (first + 2)] indexOk, .emitBandJob]

-- The second checkpoint cannot write its tree; the third frees what the second had taken.
def retried : List Action :=
  .addTree 7 (discarding []) :: checkpoint 100 true ++
    [.changeTree 0 (discarding [blob 50]) false, .requestCheckpoint, .serializeTrees [],
      .treesWritten [blob 110] false] ++ checkpoint 120 true

theorem retriedFreedOnce : FreedOnce (retried.foldl perform (start false)) :=
  retiredFreedOnce (reachableAllowed (by decide))

example : (retried.foldl perform (start false)).freed = [[], [blob 50, blob 100, blob 101, blob 102]] := by decide

/-! The index of the second checkpoint cannot be written after its tree was. The tree is clean, its map has
discarded nothing and the registry names the new blob: no later checkpoint frees the unit or the old one. -/

def lost : List Action :=
  .addTree 7 (discarding []) :: checkpoint 100 true ++
    .changeTree 0 (discarding [blob 50]) false :: checkpoint 110 false

theorem failedCommitLeaks : ¬∀ sink w, Reachable (system sink) w → FreedOnce w := by
  intro all
  have run : AllAllowed (fun w a => True ∧ Allowed w a) perform (start false) lost := by decide
  have counted := (all false _ (reachableUnder (reachableAllowed run))).accounted (blob 50)
  exact absurd counted (by decide)

end Dewfall.FreedLocations
