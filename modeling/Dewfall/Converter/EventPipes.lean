import Dewfall.Converter.ProcessorIdle

/-! The pipes that feed the input registry, each first in first out, with no order between two of
them. A file's chunks are announced, sorted, stored and inserted; its reader's end is announced once
all are sorted. Sort and write failures, the read budget and shutdown are left out. -/
namespace Dewfall.EventPipes
open General General.Transition InputRegistry
open DoneBoundary (Changed modifyItemChanged finishReadChanged changedFind changedKeep doneChanged rebuildFrame
  advancedDone advancedLe)
open ProcessorIdle (Shape)

inductive Stage where
  | idle | queued | reading | read | closed
  deriving DecidableEq, Repr

structure Progress where
  stage : Stage
  posted : Nat
  unsorted : Nat
  -- Sorted chunks that the storage or the tree still has to take.
  stored : Nat
  inserted : Nat
  deriving DecidableEq, Repr

structure World where
  registry : Registry
  progress : Nat → Progress
  subAdded : List Nat
  sorted : List (Nat × Nat × Nat)
  readingDone : List Nat
  treeDone : List Nat

def start : World := ⟨empty, fun _ => ⟨.idle, 0, 0, 0, 0⟩, [], [], [], []⟩

inductive Action where
  | registerFile (name : Name)
  | preInit (id : Nat) (order : Option Nat) (pointCount pointSizeBytes : Nat)
  | preInitFailed (id : Nat)
  | dispatch (id : Nat)
  | beginRead (id : Nat)
  | readChunk (id : Nat)
  | endRead (id : Nat)
  | sortChunk (id min max : Nat)
  | closeFile (id : Nat)
  | insertChunk (id : Nat)
  | takeSubAdded
  | takeSorted
  | takeReadingDone
  | takeTreeDone
  | askDoneMorton
  deriving DecidableEq, Repr

def update (w : World) (id : Nat) (f : Progress → Progress) : World :=
  { w with progress := Function.update w.progress id (f (w.progress id)) }

def enter (w : World) (id : Nat) (stage : Stage) : World := update w id fun p => { p with stage := stage }

def readChunk (w : World) (id : Nat) : World :=
  update { w with subAdded := w.subAdded ++ [id] } id fun p =>
    { p with posted := p.posted + 1, unsorted := p.unsorted + 1 }

def sortChunk (w : World) (id min max : Nat) : World :=
  update { w with sorted := w.sorted ++ [(id, min, max)] } id fun p => { p with unsorted := p.unsorted - 1 }

def closeFile (w : World) (id : Nat) : World :=
  enter { w with readingDone := w.readingDone ++ [id] } id .closed

def insertChunk (w : World) (id : Nat) : World :=
  update { w with treeDone := w.treeDone ++ [id] } id fun p =>
    { p with stored := p.stored - 1, inserted := p.inserted + 1 }

def takeSubAdded (w : World) : World :=
  match w.subAdded with
  | [] => w
  | id :: rest => { w with subAdded := rest, registry := handleSubAdded w.registry id }

def takeSorted (w : World) : World :=
  match w.sorted with
  | [] => w
  | (id, min, max) :: rest =>
    update { w with sorted := rest, registry := handleSortedPoints w.registry id min max } id fun p =>
      { p with stored := p.stored + 1 }

def takeReadingDone (w : World) : World :=
  match w.readingDone with
  | [] => w
  | id :: rest => { w with readingDone := rest, registry := handleReadingDone w.registry id }

def takeTreeDone (w : World) : World :=
  match w.treeDone with
  | [] => w
  | id :: rest => { w with treeDone := rest, registry := handleTreeDoneWithInput w.registry id }

variable (layout : Layout Nat Item)

def perform (w : World) : Action → World
  | .registerFile name => { w with registry := (registerFile layout w.registry name).1 }
  | .preInit id order count size => { w with registry := registerPreInitResult w.registry id order count size }
  | .preInitFailed id => { w with registry := handleFileFailed w.registry id }
  | .dispatch id => enter { w with registry := nextInputToProcess w.registry id } id .queued
  | .beginRead id => enter w id .reading
  | .readChunk id => readChunk w id
  | .endRead id => enter w id .read
  | .sortChunk id min max => sortChunk w id min max
  | .closeFile id => closeFile w id
  | .insertChunk id => insertChunk w id
  | .takeSubAdded => takeSubAdded w
  | .takeSorted => takeSorted w
  | .takeReadingDone => takeReadingDone w
  | .takeTreeDone => takeTreeDone w
  | .askDoneMorton => { w with registry := (getDoneMorton w.registry).1 }

def Allowed (w : World) : Action → Prop
  | .registerFile _ | .takeSubAdded | .takeSorted | .takeReadingDone | .takeTreeDone | .askDoneMorton => True
  -- A file added again is given to the pre-init again.
  | .preInit id _ _ _ | .preInitFailed id => (w.registry.items.find id).isSome
  | .dispatch id => Next w.registry id
  | .beginRead id => (w.progress id).stage = .queued
  | .readChunk id | .endRead id => (w.progress id).stage = .reading
  | .sortChunk id _ _ => 0 < (w.progress id).unsorted
  | .closeFile id => (w.progress id).stage = .read ∧ (w.progress id).unsorted = 0
  | .insertChunk id => 0 < (w.progress id).stored

instance (w a) : Decidable (Allowed w a) := by
  cases a <;> dsimp only [Allowed] <;> infer_instance

def system : System World Action := System.ofFunction start Allowed (perform layout)

-- A reader that is still to begin, or has not ended.
def Pending (w : World) (id : Nat) : Prop := (w.progress id).stage = .queued ∨ (w.progress id).stage = .reading

instance (w id) : Decidable (Pending w id) := by unfold Pending; infer_instance

-- A file is retired only behind the announcements of all its chunks: none is left in the pipe and
-- its reader posts no more.
def StepSound (w : World) : Action → Prop
  | .takeReadingDone => ∀ id ∈ w.readingDone.head?, id ∉ w.subAdded
  | .preInitFailed id => ¬Pending w id ∧ id ∉ w.subAdded
  | _ => True

instance (w a) : Decidable (StepSound w a) := by
  cases a <;> dsimp only [StepSound] <;> infer_instance

-- All chunks that the reader of `id` posts in any run from here are in the tree now.
def EverInserted (w : World) (id : Nat) : Prop :=
  ∀ labels after, Run (system layout) w labels after → (after.progress id).posted = (w.progress id).inserted

structure DoneSound (w : World) : Prop where
  boundary : ∀ id ∈ (getDoneMorton w.registry).1.sortedInputSources.take
    (getDoneMorton w.registry).1.donePrefixIndex, EverInserted layout w id
  again : ∀ name, (registerFile layout w.registry name).2.2 = true →
    EverInserted layout w (registerFile layout w.registry name).2.1
  all : allInsertedIntoTree w.registry = true → ∀ id item, w.registry.items.find id = some item →
    item.readFinished = true ∧ EverInserted layout w id

variable {layout}

/-! ## One number of every file -/

def valueOf (g : Item → Nat) (items : DenseMap Nat Item) (id : Nat) : Nat := ((items.find id).map g).getD 0

theorem valueFound {g : Item → Nat} {items : DenseMap Nat Item} {id item} (found : items.find id = some item) :
    valueOf g items id = g item := by
  rw [valueOf, found]
  rfl

theorem valueChanged {before after : DenseMap Nat Item} {id f} {g : Item → Nat}
    (changed : Changed before after id f) (keeps : ∀ item, g (f item) = g item) (k : Nat) :
    valueOf g after k = valueOf g before k := by
  unfold valueOf
  rw [changed k]
  split
  · rename_i same
    rw [same]
    cases before.find id with
    | none => rfl
    | some item => exact keeps item
  · rfl

theorem valueAdds {before after : DenseMap Nat Item} {id f item} {g : Item → Nat}
    (changed : Changed before after id f) (found : before.find id = some item) (adds : g (f item) = g item + 1) (k : Nat) :
    valueOf g after k = valueOf g before k + if k = id then 1 else 0 := by
  unfold valueOf
  rw [changed k]
  split
  · rename_i same
    rw [same, found]
    exact adds
  · rfl

theorem totalChanged (items : DenseMap Nat Item) (id : Nat) (f : Item → Item) {g : Item → Nat}
    (keeps : ∀ item, g (f item) = g item) : (modifyItem items id f).total g = items.total g := by
  unfold modifyItem
  split
  · rfl
  · rename_i item found
    have step := DenseMap.totalAssign found (f item) g
    rw [keeps item] at step
    exact Nat.add_right_cancel step

theorem totalAdds {items : DenseMap Nat Item} {id item} {f : Item → Item} {g : Item → Nat}
    (found : items.find id = some item) (adds : g (f item) = g item + 1) :
    (modifyItem items id f).total g = items.total g + 1 := by
  have step := DenseMap.totalAssign found (f item) g
  unfold modifyItem
  rw [found]
  dsimp only
  omega

/-! ## Steps that count nothing -/

structure Kept (r after : Registry) : Prop where
  shape : Shape after
  subs : ∀ id, valueOf Item.subCount after.items id = valueOf Item.subCount r.items id
  trees : ∀ id, valueOf Item.insertedIntoTree after.items id = valueOf Item.insertedIntoTree r.items id
  added : after.inputDataWithSubParts = r.inputDataWithSubParts
  inserted : after.inputDataInsertedToTree = r.inputDataInsertedToTree
  totalSubs : after.items.total Item.subCount = r.items.total Item.subCount
  totalTrees : after.items.total Item.insertedIntoTree = r.items.total Item.insertedIntoTree
  started : ∀ id, (∃ item ∈ r.items.find id, item.readStarted = true) →
    ∃ item ∈ after.items.find id, item.readStarted = true

theorem startedChanged {before after : DenseMap Nat Item} {id f} (changed : Changed before after id f)
    (starts : ∀ item, item.readStarted = true → (f item).readStarted = true) (k : Nat)
    (here : ∃ item ∈ before.find k, item.readStarted = true) : ∃ item ∈ after.find k, item.readStarted = true := by
  obtain ⟨item, found, started⟩ := here
  refine ⟨_, changedKeep changed found, ?_⟩
  split
  · exact starts item started
  · exact started

theorem modifyKept {r after : Registry} {id} {f : Item → Item} (shape : Shape after)
    (items : after.items = modifyItem r.items id f) (added : after.inputDataWithSubParts = r.inputDataWithSubParts)
    (inserted : after.inputDataInsertedToTree = r.inputDataInsertedToTree)
    (subs : ∀ item, (f item).subCount = item.subCount)
    (trees : ∀ item, (f item).insertedIntoTree = item.insertedIntoTree)
    (starts : ∀ item, item.readStarted = true → (f item).readStarted = true) : Kept r after := by
  have changed : Changed r.items after.items id f := items ▸ modifyItemChanged r.items id f
  refine ⟨shape, valueChanged changed subs, valueChanged changed trees, added, inserted, ?_, ?_,
    startedChanged changed starts⟩
  · rw [items, totalChanged r.items id f subs]
  · rw [items, totalChanged r.items id f trees]

theorem finishItems (r : Registry) (id : Nat) :
    (finishRead r id).items = modifyItem r.items id fun item => { item with readFinished := true } := by
  unfold finishRead modifyItem
  split
  · rfl
  · rename_i item found
    split
    · rename_i finished
      refine DenseMap.entriesExt ?_
      have same : ∀ e ∈ r.items.entries,
          (if e.1 = id then (id, { item with readFinished := true }) else e) = e := by
        intro e mem
        split
        · rename_i here
          have there : r.items.find id = some e.2 := DenseMap.findMem.mpr (here ▸ mem)
          cases Option.some.inj (found.symm.trans there)
          rw [← here, ← finished]
        · rfl
      exact (List.map_id _).symm.trans (List.map_congr_left fun e mem => (same e mem).symm)
    · rfl

theorem keptTrans {r middle after} (one : Kept r middle) (two : Kept middle after) : Kept r after :=
  ⟨two.shape, fun id => (two.subs id).trans (one.subs id), fun id => (two.trees id).trans (one.trees id),
    two.added.trans one.added, two.inserted.trans one.inserted, two.totalSubs.trans one.totalSubs,
    two.totalTrees.trans one.totalTrees, fun id here => two.started id (one.started id here)⟩

theorem finishKept {r id} (shape : Shape r)
    (started : ∀ item, r.items.find id = some item → item.readStarted = true) : Kept r (finishRead r id) := by
  obtain ⟨_, _, _, _, added, inserted⟩ := ProcessorIdle.finishFrame r id
  exact modifyKept (ProcessorIdle.finishShape shape started) (finishItems r id) added inserted (fun _ => rfl)
    (fun _ => rfl) fun _ h => h

theorem failedKept {r} (shape : Shape r) (id : Nat) : Kept r (handleFileFailed r id) := by
  have marked : Kept r { r with
      items := modifyItem r.items id fun item => { item with preInitSettled := true, readStarted := true }
      unsortedInputSourcesDirty := true } := by
    refine modifyKept ?_ rfl rfl rfl (fun _ => rfl) (fun _ => rfl) fun _ _ => rfl
    exact ProcessorIdle.modifyShape shape rfl rfl rfl rfl (fun _ => rfl) (fun _ _ => rfl) (fun _ h => h)
      fun clean => absurd clean (by simp)
  refine keptTrans marked (finishKept marked.shape fun item found => ?_)
  obtain ⟨old, _, rfl⟩ := changedFind (modifyItemChanged r.items id _) found
  rw [if_pos rfl]

theorem preInitKept {r} (shape : Shape r) (id : Nat) (order : Option Nat) (count size : Nat) :
    Kept r (registerPreInitResult r id order count size) := by
  refine modifyKept ?_ rfl rfl rfl (fun _ => rfl) (fun _ => rfl) fun _ h => h
  exact ProcessorIdle.modifyShape shape rfl rfl rfl rfl (fun _ => rfl) (fun _ h => h) (fun _ h => h)
    fun clean => absurd clean (by simp [registerPreInitResult])

theorem sortedKept {r} (shape : Shape r) (id min max : Nat) : Kept r (handleSortedPoints r id min max) := by
  refine @modifyKept r _ id (ProcessorIdle.widen min max) ?_ rfl rfl rfl (fun _ => rfl) (fun _ => rfl) fun _ h => h
  refine @ProcessorIdle.modifyShape r _ id (ProcessorIdle.widen min max) shape rfl rfl rfl rfl (fun _ => rfl)
    (fun _ h => h) (fun item code => ?_) fun clean => ⟨clean, rfl, fun _ h => h⟩
  unfold ProcessorIdle.widen
  dsimp only
  split
  · omega
  · exact code

theorem dispatchKept {r id} (shape : Shape r) (next : Next r id) : Kept r (nextInputToProcess r id) := by
  obtain ⟨items, _⟩ := rebuildFrame r
  have counts : (rebuildUnsorted r).inputDataWithSubParts = r.inputDataWithSubParts ∧
      (rebuildUnsorted r).inputDataInsertedToTree = r.inputDataInsertedToTree := by
    unfold rebuildUnsorted
    split
    · exact ⟨rfl, rfl⟩
    · exact ⟨rfl, rfl⟩
  refine @modifyKept r _ id (fun item => { item with readStarted := true })
    (ProcessorIdle.dispatchShape shape next).1 ?_ counts.1 counts.2 (fun _ => rfl) (fun _ => rfl) fun _ _ => rfl
  rw [← items]
  rfl

theorem askKept {r} (shape : Shape r) : Kept r (getDoneMorton r).1 := by
  have shape' := ProcessorIdle.askShape shape
  rw [ProcessorIdle.askFrame] at *
  exact ⟨shape', fun _ => rfl, fun _ => rfl, rfl, rfl, rfl, rfl, fun _ h => h⟩

theorem registerKept {r name} (shape : Shape r) : Kept r (registerFile layout r name).1 := by
  have shape' := (@ProcessorIdle.registerShape layout r name shape).1
  unfold registerFile at *
  split
  · rename_i here
    rw [here] at shape'
    exact ⟨shape, fun _ => rfl, fun _ => rfl, rfl, rfl, rfl, rfl, fun _ h => h⟩
  rename_i missing
  rw [missing] at shape'
  have absent : r.items.find r.nextInputId = none := by
    cases found : r.items.find r.nextInputId with
    | none => rfl
    | some item => exact absurd (shape.fresh _ item found) (Nat.lt_irrefl _)
  have added := @DenseMap.findEmplace _ _ _ layout _ _ absent (freshItem name)
  have value : ∀ g : Item → Nat, g (freshItem name) = 0 → ∀ id,
      valueOf g (r.items.emplace layout r.nextInputId (freshItem name)) id = valueOf g r.items id := by
    intro g zero id
    unfold valueOf
    rw [added]
    split
    · rename_i same
      rw [same, absent]
      exact zero
    · rfl
  refine ⟨shape', value _ rfl, value _ rfl, rfl, rfl, ?_, ?_, fun id here => ?_⟩
  · exact (DenseMap.totalEmplace absent _ _).trans (Nat.zero_add _)
  · exact (DenseMap.totalEmplace absent _ _).trans (Nat.zero_add _)
  · obtain ⟨item, found, started⟩ := here
    refine ⟨item, ?_, started⟩
    show (r.items.emplace layout r.nextInputId (freshItem name)).find id = some item
    rw [added, if_neg ?_]
    · exact found
    · rintro rfl
      rw [absent] at found
      cases found

theorem subAddedChanged (r : Registry) (id : Nat) : Changed r.items (handleSubAdded r id).items id
    fun item => { item with subCount := item.subCount + 1 } := modifyItemChanged r.items id _

theorem treeDoneChanged (r : Registry) (id : Nat) : Changed r.items (handleTreeDoneWithInput r id).items id
    fun item => { item with insertedIntoTree := item.insertedIntoTree + 1 } := modifyItemChanged r.items id _

/-! ## Where every chunk is -/

structure Counted (w : World) : Prop where
  shape : Shape w.registry
  added : w.registry.inputDataWithSubParts = w.registry.items.total Item.subCount
  inserted : w.registry.inputDataInsertedToTree = w.registry.items.total Item.insertedIntoTree
  subs : ∀ id, valueOf Item.subCount w.registry.items id + w.subAdded.count id = (w.progress id).posted
  trees : ∀ id, valueOf Item.insertedIntoTree w.registry.items id + w.treeDone.count id = (w.progress id).inserted
  flow : ∀ id, (w.progress id).posted = (w.progress id).unsorted + (w.sorted.map Prod.fst).count id +
    (w.progress id).stored + (w.progress id).inserted
  started : ∀ id, (w.progress id).stage ≠ .idle → ∃ item ∈ w.registry.items.find id, item.readStarted = true
  quiet : ∀ id, (w.progress id).stage = .idle → (w.progress id).posted = 0
  closing : ∀ id ∈ w.readingDone, (w.progress id).stage = .closed

theorem startCounted : Counted start := by
  refine ⟨ProcessorIdle.emptyShape, rfl, rfl, fun _ => rfl, fun _ => rfl, fun _ => rfl, ?_, fun _ _ => rfl, ?_⟩
  · intro id away
    exact absurd rfl away
  · intro id mem
    cases mem

theorem keptCounted {w r} (counted : Counted w) (kept : Kept w.registry r) : Counted { w with registry := r } := by
  obtain ⟨_, added, inserted, subs, trees, flow, started, quiet, closing⟩ := counted
  refine ⟨kept.shape, ?_, ?_, fun id => ?_, fun id => ?_, flow, fun id away => kept.started id (started id away),
    quiet, closing⟩
  · exact kept.added.trans (added.trans kept.totalSubs.symm)
  · exact kept.inserted.trans (inserted.trans kept.totalTrees.symm)
  · exact (congrArg (· + _) (kept.subs id)).trans (subs id)
  · exact (congrArg (· + _) (kept.trees id)).trans (trees id)

theorem postedFound {w} (id : Nat) (counted : Counted w) (some_ : 0 < (w.progress id).posted) :
    ∃ item ∈ w.registry.items.find id, item.readStarted = true := by
  refine counted.started id fun idle => ?_
  have none_ := counted.quiet id idle
  omega

-- A step of one file's own progress and its entries in the pipes.
theorem updateCounted {w : World} (id : Nat) {f : Progress → Progress} {subAdded sorted readingDone treeDone}
    (counted : Counted w)
    (others : ∀ k, k ≠ id → subAdded.count k = w.subAdded.count k ∧ treeDone.count k = w.treeDone.count k ∧
      (sorted.map Prod.fst).count k = (w.sorted.map Prod.fst).count k)
    (subs : valueOf Item.subCount w.registry.items id + subAdded.count id = (f (w.progress id)).posted)
    (trees : valueOf Item.insertedIntoTree w.registry.items id + treeDone.count id = (f (w.progress id)).inserted)
    (flow : (f (w.progress id)).posted = (f (w.progress id)).unsorted + (sorted.map Prod.fst).count id +
      (f (w.progress id)).stored + (f (w.progress id)).inserted)
    (started : (w.progress id).stage = .idle → (f (w.progress id)).stage ≠ .idle →
      ∃ item ∈ w.registry.items.find id, item.readStarted = true)
    (quiet : (f (w.progress id)).stage = .idle → (f (w.progress id)).posted = 0)
    (closing : ∀ k ∈ readingDone, k ∈ w.readingDone ∨ k = id)
    (closed : (w.progress id).stage = .closed ∨ id ∈ readingDone → (f (w.progress id)).stage = .closed) :
    Counted (update ⟨w.registry, w.progress, subAdded, sorted, readingDone, treeDone⟩ id f) := by
  have own : (Function.update w.progress id (f (w.progress id))) id = f (w.progress id) := Function.update_self ..
  have other : ∀ k, k ≠ id → (Function.update w.progress id (f (w.progress id))) k = w.progress k :=
    fun k away => Function.update_of_ne away ..
  unfold update
  dsimp only
  refine ⟨counted.shape, counted.added, counted.inserted, fun k => ?_, fun k => ?_, fun k => ?_, fun k away => ?_,
    fun k idle => ?_, fun k mem => ?_⟩
  all_goals
    dsimp only at *
    by_cases same : k = id
  · rw [same, own]
    exact subs
  · rw [other k same, (others k same).1]
    exact counted.subs k
  · rw [same, own]
    exact trees
  · rw [other k same, (others k same).2.1]
    exact counted.trees k
  · rw [same, own]
    exact flow
  · rw [other k same, (others k same).2.2]
    exact counted.flow k
  · rw [same, own] at away
    rw [same]
    by_cases idle : (w.progress id).stage = .idle
    · exact started idle away
    · exact counted.started id idle
  · rw [other k same] at away
    exact counted.started k away
  · rw [same, own] at idle ⊢
    exact quiet idle
  · rw [other k same] at idle ⊢
    exact counted.quiet k idle
  · rw [same, own]
    exact closed (Or.inr (same ▸ mem))
  · rw [other k same]
    exact counted.closing k ((closing k mem).resolve_right same)

theorem appendOther {l : List Nat} {id k : Nat} (away : k ≠ id) : (l ++ [id]).count k = l.count k := by
  rw [List.count_append, List.count_singleton, if_neg (by simpa using away.symm), Nat.add_zero]

theorem appendOwn (l : List Nat) (id : Nat) : (l ++ [id]).count id = l.count id + 1 := by
  rw [List.count_append, List.count_singleton_self]

theorem enterCounted {w id stage} (counted : Counted w)
    (started : ∃ item ∈ w.registry.items.find id, item.readStarted = true) (busy : stage ≠ .idle)
    (open_ : (w.progress id).stage ≠ .closed) : Counted (enter w id stage) := by
  refine updateCounted id counted (fun _ _ => ⟨rfl, rfl, rfl⟩) (counted.subs id) (counted.trees id)
    (counted.flow id) (fun _ _ => started) (fun idle => absurd idle busy) (fun k mem => Or.inl mem) ?_
  rintro (closed | mem)
  · exact absurd closed open_
  · exact absurd (counted.closing id mem) open_

theorem readCounted {w id} (counted : Counted w) (reading : (w.progress id).stage = .reading) :
    Counted (readChunk w id) := by
  have subs := counted.subs id
  have flow := counted.flow id
  refine updateCounted id counted (fun k away => ⟨appendOther away, rfl, rfl⟩) ?_ (counted.trees id) ?_
    (fun idle => absurd (idle.symm.trans reading) (by decide)) (fun idle => ?_) (fun k mem => Or.inl mem) ?_
  · rw [appendOwn]
    dsimp only
    omega
  · dsimp only
    omega
  · exact absurd (idle.symm.trans reading) (by decide)
  · rintro (closed | mem)
    · exact closed
    · exact counted.closing id mem

theorem sortCounted {w id min max} (counted : Counted w) (some_ : 0 < (w.progress id).unsorted) :
    Counted (sortChunk w id min max) := by
  have flow := counted.flow id
  refine updateCounted id counted (fun k away => ⟨rfl, rfl, ?_⟩) (counted.subs id) (counted.trees id) ?_
    (fun idle other => absurd idle other) (fun idle => counted.quiet id idle) (fun k mem => Or.inl mem) ?_
  · rw [List.map_append]
    exact appendOther away
  · rw [List.map_append, List.map_cons, List.map_nil, appendOwn]
    dsimp only
    omega
  · rintro (closed | mem)
    · exact closed
    · exact counted.closing id mem

theorem closeCounted {w id} (counted : Counted w) (read : (w.progress id).stage = .read) :
    Counted (closeFile w id) := by
  refine updateCounted id (f := fun p => { p with stage := .closed }) counted (fun _ _ => ⟨rfl, rfl, rfl⟩)
    (counted.subs id) (counted.trees id) (counted.flow id) (fun idle => absurd (idle.symm.trans read) (by decide))
    (fun idle => by cases idle) (fun k mem => ?_) fun _ => rfl
  exact (List.mem_append.mp mem).imp_right List.mem_singleton.mp

theorem insertCounted {w id} (counted : Counted w) (some_ : 0 < (w.progress id).stored) :
    Counted (insertChunk w id) := by
  have trees := counted.trees id
  have flow := counted.flow id
  refine updateCounted id counted (fun k away => ⟨rfl, appendOther away, rfl⟩) (counted.subs id) ?_ ?_
    (fun idle other => absurd idle other) (fun idle => counted.quiet id idle) (fun k mem => Or.inl mem) ?_
  · rw [appendOwn]
    dsimp only
    omega
  · dsimp only
    omega
  · rintro (closed | mem)
    · exact closed
    · exact counted.closing id mem

theorem takeSubCounted {w} (counted : Counted w) : Counted (takeSubAdded w) := by
  unfold takeSubAdded
  split
  · exact counted
  · rename_i id rest pipe
    have subs := counted.subs id
    rw [pipe, List.count_cons_self] at subs
    obtain ⟨item, found, started⟩ := postedFound id counted (by omega)
    have changed := subAddedChanged w.registry id
    have others := @totalChanged w.registry.items id (fun item => { item with subCount := item.subCount + 1 })
      Item.insertedIntoTree fun _ => rfl
    obtain ⟨shape, added, inserted, subs, trees, flow, starts, quiet, closing⟩ := counted
    refine ⟨?_, ?_, ?_, fun k => ?_, fun k => ?_, flow, fun k away => ?_, quiet, closing⟩
    · exact ProcessorIdle.modifyShape shape rfl rfl rfl rfl (fun _ => rfl) (fun _ h => h) (fun _ h => h)
        fun clean => ⟨clean, rfl, fun _ h => h⟩
    · show w.registry.inputDataWithSubParts + 1 = (modifyItem w.registry.items id _).total Item.subCount
      rw [totalAdds found rfl, added]
    · exact inserted.trans others.symm
    · have before := subs k
      rw [pipe, List.count_cons] at before
      show valueOf Item.subCount (handleSubAdded w.registry id).items k + rest.count k = _
      rw [valueAdds (g := Item.subCount) changed found rfl k]
      by_cases same : k = id
      · simp only [same, if_true, beq_self_eq_true] at before ⊢
        omega
      · rw [if_neg (by simpa using fun h => same h.symm)] at before
        rw [if_neg same]
        omega
    · exact (congrArg (· + _) (valueChanged changed (fun _ => rfl) k)).trans (trees k)
    · exact startedChanged changed (fun _ h => h) k (starts k away)

theorem takeTreeCounted {w} (counted : Counted w) : Counted (takeTreeDone w) := by
  unfold takeTreeDone
  split
  · exact counted
  · rename_i id rest pipe
    have done := counted.trees id
    have flowed := counted.flow id
    rw [pipe, List.count_cons_self] at done
    obtain ⟨item, found, started⟩ := postedFound id counted (by omega)
    have changed := treeDoneChanged w.registry id
    have others := @totalChanged w.registry.items id
      (fun item => { item with insertedIntoTree := item.insertedIntoTree + 1 }) Item.subCount fun _ => rfl
    obtain ⟨shape, added, inserted, subs, trees, flow, starts, quiet, closing⟩ := counted
    refine ⟨?_, ?_, ?_, fun k => ?_, fun k => ?_, flow, fun k away => ?_, quiet, closing⟩
    · exact ProcessorIdle.modifyShape shape rfl rfl rfl rfl (fun _ => rfl) (fun _ h => h) (fun _ h => h)
        fun clean => ⟨clean, rfl, fun _ h => h⟩
    · exact added.trans others.symm
    · show w.registry.inputDataInsertedToTree + 1 = (modifyItem w.registry.items id _).total Item.insertedIntoTree
      rw [totalAdds found rfl, inserted]
    · exact (congrArg (· + _) (valueChanged changed (fun _ => rfl) k)).trans (subs k)
    · have before := trees k
      rw [pipe, List.count_cons] at before
      show valueOf Item.insertedIntoTree (handleTreeDoneWithInput w.registry id).items k + rest.count k = _
      rw [valueAdds (g := Item.insertedIntoTree) changed found rfl k]
      by_cases same : k = id
      · simp only [same, if_true, beq_self_eq_true] at before ⊢
        omega
      · rw [if_neg (by simpa using fun h => same h.symm)] at before
        rw [if_neg same]
        omega
    · exact startedChanged changed (fun _ h => h) k (starts k away)

theorem takeSortedCounted {w} (counted : Counted w) : Counted (takeSorted w) := by
  unfold takeSorted
  split
  · exact counted
  · rename_i id min max rest pipe
    have kept := keptCounted counted (sortedKept counted.shape id min max)
    have flow := counted.flow id
    rw [pipe, List.map_cons, List.count_cons_self] at flow
    refine updateCounted id kept (fun k away => ⟨rfl, rfl, ?_⟩) (kept.subs id) (kept.trees id) ?_
      (fun idle other => absurd idle other) (fun idle => counted.quiet id idle) (fun k mem => Or.inl mem) ?_
    · rw [pipe, List.map_cons, List.count_cons, if_neg (by simpa using fun h => away h.symm), Nat.add_zero]
    · dsimp only
      omega
    · rintro (closed | mem)
      · exact closed
      · exact counted.closing id mem

theorem takeDoneCounted {w} (counted : Counted w) : Counted (takeReadingDone w) := by
  unfold takeReadingDone
  split
  · exact counted
  · rename_i id rest pipe
    have mem : id ∈ w.readingDone := pipe ▸ List.mem_cons_self
    obtain ⟨item, found, started⟩ := counted.started id fun idle =>
      absurd (idle.symm.trans (counted.closing id mem)) (by decide)
    have kept : Kept w.registry (handleReadingDone w.registry id) := finishKept counted.shape fun other there => by
      cases Option.some.inj (there.symm.trans found)
      exact started
    have fewer : Counted { w with readingDone := rest } :=
      ⟨counted.shape, counted.added, counted.inserted, counted.subs, counted.trees, counted.flow, counted.started,
        counted.quiet, fun k later => counted.closing k (pipe ▸ List.mem_cons_of_mem _ later)⟩
    exact keptCounted fewer kept

theorem dispatchCounted {w id} (counted : Counted w) (next : Next w.registry id) :
    Counted (enter { w with registry := nextInputToProcess w.registry id } id .queued) := by
  have kept := keptCounted counted (dispatchKept counted.shape next)
  obtain ⟨item, found, unstarted, _⟩ := ProcessorIdle.nextUnread counted.shape next
  obtain ⟨items, _⟩ := rebuildFrame w.registry
  have idle : (w.progress id).stage = .idle := by
    by_contra away
    obtain ⟨other, there, started⟩ := counted.started id away
    cases Option.some.inj (there.symm.trans found)
    exact absurd (started.symm.trans unstarted) (by decide)
  refine enterCounted kept ?_ (by decide) (fun closed => absurd (closed.symm.trans idle) (by decide))
  have changed := modifyItemChanged (rebuildUnsorted w.registry).items id fun item =>
    { item with readStarted := true }
  exact ⟨_, changedKeep changed (items ▸ found), by rw [if_pos rfl]⟩

theorem performCounted {w a} (counted : Counted w) (allowed : Allowed w a) : Counted (perform layout w a) := by
  cases a with
  | registerFile name => exact keptCounted counted (registerKept counted.shape)
  | preInit id order count size => exact keptCounted counted (preInitKept counted.shape id order count size)
  | preInitFailed id => exact keptCounted counted (failedKept counted.shape id)
  | dispatch id => exact dispatchCounted counted allowed
  | beginRead id =>
    have queued : (w.progress id).stage = .queued := allowed
    exact enterCounted counted (counted.started id (by rw [queued]; decide)) (by decide) (by rw [queued]; decide)
  | readChunk id => exact readCounted counted allowed
  | endRead id =>
    have reading : (w.progress id).stage = .reading := allowed
    exact enterCounted counted (counted.started id (by rw [reading]; decide)) (by decide) (by rw [reading]; decide)
  | sortChunk id min max => exact sortCounted counted allowed
  | closeFile id => exact closeCounted counted allowed.1
  | insertChunk id => exact insertCounted counted allowed
  | takeSubAdded => exact takeSubCounted counted
  | takeSorted => exact takeSortedCounted counted
  | takeReadingDone => exact takeDoneCounted counted
  | takeTreeDone => exact takeTreeCounted counted
  | askDoneMorton => exact keptCounted counted (askKept counted.shape)

/-! ## Readers that have ended -/

def Frozen (w : World) (id : Nat) : Prop :=
  ¬Pending w id ∧ ∃ item ∈ w.registry.items.find id, item.readStarted = true

-- A step that leaves the reader of `id` as it is.
structure Unmoved (w after : World) (id : Nat) : Prop where
  stage : Pending after id → Pending w id
  posted : (after.progress id).posted = (w.progress id).posted
  started : (∃ item ∈ w.registry.items.find id, item.readStarted = true) →
    ∃ item ∈ after.registry.items.find id, item.readStarted = true

theorem registryUnmoved {w r id} (kept : Kept w.registry r) : Unmoved w { w with registry := r } id :=
  ⟨fun h => h, rfl, kept.started id⟩

theorem updateUnmoved {w after : World} (id : Nat) {k} {p : Progress}
    (progress : after.progress = Function.update w.progress id p) (registry : after.registry = w.registry)
    (same : k = id → (p.stage = .queued ∨ p.stage = .reading → Pending w id) ∧ p.posted = (w.progress id).posted) :
    Unmoved w after k := by
  by_cases own : k = id
  · obtain ⟨stage, posted⟩ := same own
    have here : after.progress k = p := by rw [progress, own, Function.update_self]
    refine ⟨fun pending => ?_, ?_, fun started => registry ▸ started⟩
    · rw [Pending, here] at pending
      rw [own]
      exact stage pending
    · rw [here, own]
      exact posted
  · have here : after.progress k = w.progress k := by rw [progress, Function.update_of_ne own]
    refine ⟨fun pending => ?_, congrArg Progress.posted here, fun started => registry ▸ started⟩
    rwa [Pending, here] at pending

theorem performUnmoved {w a id} (counted : Counted w) (frozen : Frozen w id) (allowed : Allowed w a) :
    Unmoved w (perform layout w a) id := by
  obtain ⟨ended, item, found, started⟩ := frozen
  cases a with
  | registerFile name => exact registryUnmoved (registerKept counted.shape)
  | preInit k order count size => exact registryUnmoved (preInitKept counted.shape k order count size)
  | preInitFailed k => exact registryUnmoved (failedKept counted.shape k)
  | dispatch k =>
    obtain ⟨other, there, unstarted, _⟩ := ProcessorIdle.nextUnread counted.shape allowed
    have away : id ≠ k := by
      rintro rfl
      cases Option.some.inj (there.symm.trans found)
      exact absurd (started.symm.trans unstarted) (by decide)
    have kept := dispatchKept counted.shape allowed
    refine ⟨fun pending => ?_, ?_, kept.started id⟩
    · unfold Pending perform enter update at pending
      dsimp only at pending
      rwa [Function.update_of_ne away] at pending
    · unfold perform enter update
      dsimp only
      rw [Function.update_of_ne away]
  | beginRead k =>
    exact updateUnmoved k rfl rfl fun same => ⟨fun _ => Or.inl allowed, rfl⟩
  | readChunk k =>
    have away : id ≠ k := by
      rintro rfl
      exact ended (Or.inr allowed)
    exact updateUnmoved k rfl rfl fun same => absurd same away
  | endRead k => exact updateUnmoved k rfl rfl fun _ => ⟨fun pending => by simp at pending, rfl⟩
  | sortChunk k min max => exact updateUnmoved k rfl rfl fun _ => ⟨fun pending => pending, rfl⟩
  | closeFile k => exact updateUnmoved k rfl rfl fun _ => ⟨fun pending => by simp at pending, rfl⟩
  | insertChunk k => exact updateUnmoved k rfl rfl fun _ => ⟨fun pending => pending, rfl⟩
  | takeSubAdded =>
    unfold perform takeSubAdded
    dsimp only
    split
    · exact ⟨fun h => h, rfl, fun h => h⟩
    · exact ⟨fun h => h, rfl, startedChanged (subAddedChanged _ _) (fun _ h => h) id⟩
  | takeSorted =>
    unfold perform takeSorted
    dsimp only
    split
    · exact ⟨fun h => h, rfl, fun h => h⟩
    · rename_i k min max rest pipe
      have moved : Unmoved { w with sorted := rest, registry := handleSortedPoints w.registry k min max }
          (update { w with sorted := rest, registry := handleSortedPoints w.registry k min max } k fun p =>
            { p with stored := p.stored + 1 }) id :=
        updateUnmoved k rfl rfl fun _ => ⟨fun pending => pending, rfl⟩
      exact ⟨moved.stage, moved.posted,
        fun here => moved.started ((sortedKept counted.shape k min max).started id here)⟩
  | takeReadingDone =>
    unfold perform takeReadingDone
    dsimp only
    split
    · exact ⟨fun h => h, rfl, fun h => h⟩
    · exact ⟨fun h => h, rfl, startedChanged (finishReadChanged _ _) (fun _ h => h) id⟩
  | takeTreeDone =>
    unfold perform takeTreeDone
    dsimp only
    split
    · exact ⟨fun h => h, rfl, fun h => h⟩
    · exact ⟨fun h => h, rfl, startedChanged (treeDoneChanged _ _) (fun _ h => h) id⟩
  | askDoneMorton => exact registryUnmoved (askKept counted.shape)

theorem runFrozen {w labels after id} (run : Run (system layout) w labels after) (counted : Counted w)
    (frozen : Frozen w id) : (after.progress id).posted = (w.progress id).posted := by
  induction run with
  | nil => rfl
  | cons step _ ih =>
    obtain ⟨allowed, rfl⟩ := step
    have moved := @performUnmoved layout _ _ id counted frozen allowed
    refine (ih (performCounted counted allowed) ⟨fun pending => ?_, moved.started frozen.2⟩).trans moved.posted
    exact frozen.1 (moved.stage pending)

/-! ## Retired files -/

def Announced (w : World) (id : Nat) : Prop := ¬Pending w id ∧ id ∉ w.subAdded

structure Invariant (w : World) : Prop where
  counted : Counted w
  retired : ∀ id item, w.registry.items.find id = some item → item.readFinished = true → Announced w id
  cursor : w.registry.donePrefixIndex ≤ w.registry.sortedInputSources.length
  finished : ∀ id ∈ w.registry.sortedInputSources.take w.registry.donePrefixIndex,
    doneId w.registry.items id = true

-- At most the files of `ids` are retired.
structure Still (r after : Registry) (ids : Nat → Prop) : Prop where
  sorted : after.sortedInputSources = r.sortedInputSources
  cursor : after.donePrefixIndex = r.donePrefixIndex
  done : ∀ k, doneId r.items k = true → doneId after.items k = true
  finished : ∀ k item, after.items.find k = some item → item.readFinished = true →
    ids k ∨ ∃ old ∈ r.items.find k, old.readFinished = true

theorem sameStill (r : Registry) (ids : Nat → Prop) : Still r r ids :=
  ⟨rfl, rfl, fun _ h => h, fun _ item found finished => Or.inr ⟨item, found, finished⟩⟩

theorem changedStill {r after : Registry} {id f} {ids : Nat → Prop} (changed : Changed r.items after.items id f)
    (sorted : after.sortedInputSources = r.sortedInputSources) (cursor : after.donePrefixIndex = r.donePrefixIndex)
    (done : ∀ item, r.items.find id = some item → item.done = true → (f item).done = true)
    (finished : ∀ item, (f item).readFinished = true → ids id ∨ item.readFinished = true) : Still r after ids := by
  refine ⟨sorted, cursor, fun k => doneChanged changed done, fun k item found read => ?_⟩
  obtain ⟨old, there, rfl⟩ := changedFind changed found
  by_cases same : k = id
  · rw [if_pos same] at read
    exact (finished old read).imp (fun here => same ▸ here) fun earlier => ⟨old, there, earlier⟩
  · rw [if_neg same] at read
    exact Or.inr ⟨old, there, read⟩

theorem stillInvariant {w after : World} {ids : Nat → Prop} (inv : Invariant w) (counted : Counted after)
    (still : Still w.registry after.registry ids)
    (keeps : ∀ id item, w.registry.items.find id = some item → item.readFinished = true → Announced after id)
    (retires : ∀ id, ids id → Announced after id) : Invariant after := by
  refine ⟨counted, fun id item found read => ?_, ?_, ?_⟩
  · rcases still.finished id item found read with here | ⟨old, there, earlier⟩
    · exact retires id here
    · exact keeps id old there earlier
  · rw [still.cursor, still.sorted]
    exact inv.cursor
  · rw [still.cursor, still.sorted]
    exact fun id mem => still.done id (inv.finished id mem)

theorem registerStill {r name} (shape : Shape r) (ids : Nat → Prop) :
    Still r (registerFile layout r name).1 ids := by
  unfold registerFile
  split
  · exact sameStill r ids
  have absent : r.items.find r.nextInputId = none := by
    cases found : r.items.find r.nextInputId with
    | none => rfl
    | some item => exact absurd (shape.fresh _ item found) (Nat.lt_irrefl _)
  have added := @DenseMap.findEmplace _ _ _ layout _ _ absent (freshItem name)
  refine ⟨rfl, rfl, fun k done => ?_, fun k item found finished => ?_⟩
  · unfold doneId at *
    dsimp only at *
    rw [added]
    split
    · rename_i same
      rw [same, absent] at done
      cases done
    · exact done
  · dsimp only at found
    rw [added] at found
    split at found
    · cases found
      cases finished
    · exact Or.inr ⟨item, found, finished⟩

theorem failedStill (r : Registry) (id : Nat) : Still r (handleFileFailed r id) (· = id) := by
  let marked := { r with
    items := modifyItem r.items id fun item => { item with preInitSettled := true, readStarted := true }
    unsortedInputSourcesDirty := true }
  obtain ⟨_, sorted, cursor, _⟩ := DoneBoundary.finishReadFrame marked id
  have changed := DoneBoundary.changedTrans (modifyItemChanged r.items id _) (finishReadChanged marked id)
  refine changedStill changed sorted cursor (fun item _ done => ?_) fun _ _ => Or.inl rfl
  simp only [Item.done, Bool.and_eq_true] at done ⊢
  exact ⟨trivial, done.2⟩

theorem readingStill (r : Registry) (id : Nat) : Still r (handleReadingDone r id) (· = id) := by
  obtain ⟨_, sorted, cursor, _⟩ := DoneBoundary.finishReadFrame r id
  refine changedStill (finishReadChanged r id) sorted cursor (fun item _ done => ?_) fun _ _ => Or.inl rfl
  simp only [Item.done, Bool.and_eq_true] at done ⊢
  exact ⟨trivial, done.2⟩

theorem subAddedStill {w id rest} (inv : Invariant w) (pipe : w.subAdded = id :: rest) :
    Still w.registry (handleSubAdded w.registry id) fun _ => False := by
  refine changedStill (subAddedChanged w.registry id) rfl rfl (fun item found done => ?_) fun _ read => Or.inr read
  simp only [Item.done, Bool.and_eq_true] at done
  exact absurd (pipe ▸ List.mem_cons_self) (inv.retired id item found done.1).2

theorem treeDoneStill (r : Registry) (id : Nat) : Still r (handleTreeDoneWithInput r id) fun _ => False := by
  refine changedStill (treeDoneChanged r id) rfl rfl (fun item _ done => ?_) fun _ read => Or.inr read
  simp only [Item.done, Bool.and_eq_true, decide_eq_true_eq] at done ⊢
  exact ⟨done.1, by omega⟩

-- The reader of a retired file has ended, so a step of another reader leaves it announced.
theorem updateAnnounced {w after : World} {id k item} {p : Progress} (inv : Invariant w)
    (progress : after.progress = Function.update w.progress id p)
    (pipe : k ≠ id → k ∉ w.subAdded → k ∉ after.subAdded)
    (own : k = id → Announced w k → ¬(p.stage = .queued ∨ p.stage = .reading) ∧ k ∉ after.subAdded)
    (found : w.registry.items.find k = some item) (read : item.readFinished = true) : Announced after k := by
  have before := inv.retired k item found read
  by_cases same : k = id
  · refine ⟨fun pending => (own same before).1 ?_, (own same before).2⟩
    rwa [Pending, progress, same, Function.update_self] at pending
  · refine ⟨fun pending => before.1 ?_, pipe same before.2⟩
    rwa [Pending, progress, Function.update_of_ne same] at pending

theorem dispatchInvariant {w id} (inv : Invariant w) (next : Next w.registry id) :
    Invariant (enter { w with registry := nextInputToProcess w.registry id } id .queued) := by
  obtain ⟨items, sorted, _, cursor, _⟩ := rebuildFrame w.registry
  obtain ⟨waiting, there, _, unread⟩ := ProcessorIdle.nextUnread inv.counted.shape next
  have changed : Changed w.registry.items (nextInputToProcess w.registry id).items id
      fun item => { item with readStarted := true } := by
    have step : Changed (rebuildUnsorted w.registry).items (nextInputToProcess w.registry id).items id _ :=
      modifyItemChanged (rebuildUnsorted w.registry).items id fun item => { item with readStarted := true }
    rwa [items] at step
  have order : (nextInputToProcess w.registry id).sortedInputSources = w.registry.sortedInputSources ++ [id] :=
    congrArg (· ++ [id]) sorted
  have index : (nextInputToProcess w.registry id).donePrefixIndex = w.registry.donePrefixIndex := cursor
  refine ⟨dispatchCounted inv.counted next, fun k item found read => ?_, ?_, fun k mem => ?_⟩
  · obtain ⟨old, before, rfl⟩ := changedFind changed found
    have earlier : old.readFinished = true := by
      split at read
      · exact read
      · exact read
    refine updateAnnounced inv rfl (fun _ away => away) (fun same _ => ?_) before earlier
    subst same
    cases Option.some.inj (before.symm.trans there)
    exact absurd (earlier.symm.trans unread) (by decide)
  · show (nextInputToProcess w.registry id).donePrefixIndex ≤ _
    rw [index]
    show _ ≤ (nextInputToProcess w.registry id).sortedInputSources.length
    rw [order, List.length_append]
    exact Nat.le_trans inv.cursor (Nat.le_add_right _ _)
  · have mem' : k ∈ (nextInputToProcess w.registry id).sortedInputSources.take
        (nextInputToProcess w.registry id).donePrefixIndex := mem
    rw [index, order, List.take_append_of_le_length inv.cursor] at mem'
    exact doneChanged changed (fun _ _ done => done) (inv.finished k mem')

theorem askInvariant {w} (inv : Invariant w) : Invariant { w with registry := (getDoneMorton w.registry).1 } := by
  have counted := keptCounted inv.counted (askKept inv.counted.shape)
  by_cases none_ : w.registry.sortedInputSources = []
  · have same : (getDoneMorton w.registry).1 = w.registry := by rw [getDoneMorton, if_pos none_]
    rw [same]
    exact inv
  · have index := ProcessorIdle.askCursor none_
    rw [ProcessorIdle.askFrame, index] at counted ⊢
    exact ⟨counted, inv.retired, advancedLe w.registry.items inv.cursor, advancedDone inv.finished⟩

theorem performInvariant {w a} (inv : Invariant w) (sound : StepSound w a) (allowed : Allowed w a) :
    Invariant (perform layout w a) := by
  have counted : Counted (perform layout w a) := performCounted inv.counted allowed
  cases a with
  | registerFile name =>
    have still := @registerStill layout w.registry name inv.counted.shape fun _ => False
    exact stillInvariant inv counted still inv.retired fun _ => False.elim
  | preInit id order count size =>
    have still : Still w.registry (registerPreInitResult w.registry id order count size) fun _ => False :=
      changedStill (modifyItemChanged _ _ _) rfl rfl (fun _ _ done => done) fun _ read => Or.inr read
    exact stillInvariant inv counted still inv.retired fun _ => False.elim
  | preInitFailed id =>
    refine stillInvariant inv counted (failedStill w.registry id) inv.retired fun k same => ?_
    rw [same]
    exact sound
  | dispatch id => exact dispatchInvariant inv allowed
  | beginRead id =>
    refine stillInvariant inv counted (sameStill _ fun _ => False) (fun k item => ?_) fun _ => False.elim
    refine updateAnnounced inv rfl (fun _ away => away) fun same before => ?_
    exact absurd (Or.inl (same ▸ allowed)) before.1
  | readChunk id =>
    refine stillInvariant inv counted (sameStill _ fun _ => False) (fun k item => ?_) fun _ => False.elim
    refine updateAnnounced inv rfl (fun other away mem => ?_) fun same before => ?_
    · exact (List.mem_append.mp mem).elim away fun last => other (List.mem_singleton.mp last)
    · exact absurd (Or.inr (same ▸ allowed)) before.1
  | endRead id =>
    refine stillInvariant inv counted (sameStill _ fun _ => False) (fun k item => ?_) fun _ => False.elim
    refine updateAnnounced inv rfl (fun _ away => away) fun same before => ?_
    exact absurd (Or.inr (same ▸ allowed)) before.1
  | sortChunk id min max =>
    refine stillInvariant inv counted (sameStill _ fun _ => False) (fun k item => ?_) fun _ => False.elim
    exact updateAnnounced inv rfl (fun _ away => away) fun same before => ⟨same ▸ before.1, before.2⟩
  | closeFile id =>
    refine stillInvariant inv counted (sameStill _ fun _ => False) (fun k item => ?_) fun _ => False.elim
    exact updateAnnounced inv rfl (fun _ away => away) fun same before => ⟨by simp, before.2⟩
  | insertChunk id =>
    refine stillInvariant inv counted (sameStill _ fun _ => False) (fun k item => ?_) fun _ => False.elim
    exact updateAnnounced inv rfl (fun _ away => away) fun same before => ⟨same ▸ before.1, before.2⟩
  | takeSubAdded =>
    unfold perform takeSubAdded at *
    dsimp only at *
    split at counted
    · exact inv
    · rename_i id rest pipe
      refine stillInvariant inv counted (subAddedStill inv pipe) (fun k item found read => ?_) fun _ => False.elim
      have before := inv.retired k item found read
      exact ⟨before.1, fun mem => before.2 (pipe ▸ List.mem_cons_of_mem _ mem)⟩
  | takeSorted =>
    unfold perform takeSorted at *
    dsimp only at *
    split at counted
    · exact inv
    · rename_i id min max rest pipe
      have still : Still w.registry (handleSortedPoints w.registry id min max) fun _ => False :=
        changedStill (ProcessorIdle.sortedChanged w.registry id min max) rfl rfl (fun _ _ done => done)
          fun _ read => Or.inr read
      refine stillInvariant inv counted still (fun k item => ?_) fun _ => False.elim
      exact updateAnnounced inv rfl (fun _ away => away) fun same before => ⟨same ▸ before.1, before.2⟩
  | takeReadingDone =>
    unfold perform takeReadingDone at *
    dsimp only at *
    split at counted
    · exact inv
    · rename_i id rest pipe
      refine stillInvariant inv counted (readingStill w.registry id) inv.retired fun k same => ?_
      have closed := inv.counted.closing id (pipe ▸ List.mem_cons_self)
      rw [same]
      refine ⟨fun pending => ?_, sound id (by rw [pipe]; rfl)⟩
      rw [Pending, closed] at pending
      simp at pending
  | takeTreeDone =>
    unfold perform takeTreeDone at *
    dsimp only at *
    split at counted
    · exact inv
    · rename_i id rest pipe
      exact stillInvariant inv counted (treeDoneStill w.registry id) inv.retired fun _ => False.elim
  | askDoneMorton => exact askInvariant inv

theorem runInvariant : Inductive ((system layout).under StepSound) Invariant := by
  constructor
  · intro w first
    cases first
    refine ⟨startCounted, fun id item found => ?_, Nat.le_refl _, fun id mem => by simp [start, empty] at mem⟩
    cases found
  · intro w a after inv step
    obtain ⟨sound, allowed, rfl⟩ := step
    exact performInvariant inv sound allowed

/-! ## What is treated as done -/

theorem doneInserted {w id item} (inv : Invariant w) (found : w.registry.items.find id = some item)
    (done : item.done = true) : EverInserted layout w id := by
  simp only [Item.done, Bool.and_eq_true, decide_eq_true_eq] at done
  obtain ⟨ended, pipe⟩ := inv.retired id item found done.1
  have subs := inv.counted.subs id
  have trees := inv.counted.trees id
  have flow := inv.counted.flow id
  rw [valueFound found] at subs trees
  rw [List.count_eq_zero.mpr pipe] at subs
  intro labels after run
  have posted := runFrozen run inv.counted ⟨ended, item, found, inv.counted.shape.read id item found done.1⟩
  omega

theorem allRetired {w} (inv : Invariant w) (all : allInsertedIntoTree w.registry = true) {id item}
    (found : w.registry.items.find id = some item) : item.readFinished = true := by
  cases read : item.readFinished with
  | true => rfl
  | false =>
    have short := ProcessorIdle.shortOpen (ProcessorIdle.unreadShort inv.counted.shape ⟨item, found, read⟩)
    exact absurd (short.symm.trans all) (by decide)

theorem allDone {w} (inv : Invariant w) (all : allInsertedIntoTree w.registry = true) {id item}
    (found : w.registry.items.find id = some item) : item.done = true := by
  have counts : w.registry.items.total Item.insertedIntoTree = w.registry.items.total Item.subCount := by
    simp only [allInsertedIntoTree, Bool.and_eq_true, decide_eq_true_eq] at all
    rw [← inv.counted.inserted, ← inv.counted.added, all.2]
  have le : ∀ k other, w.registry.items.find k = some other → other.insertedIntoTree ≤ other.subCount := by
    intro k other there
    obtain ⟨_, pipe⟩ := inv.retired k other there (allRetired inv all there)
    have subs := inv.counted.subs k
    have trees := inv.counted.trees k
    have flow := inv.counted.flow k
    rw [valueFound there] at subs trees
    rw [List.count_eq_zero.mpr pipe] at subs
    omega
  have same := DenseMap.totalSame le counts id item found
  simp only [Item.done, Bool.and_eq_true, decide_eq_true_eq]
  exact ⟨allRetired inv all found, Nat.le_of_eq same.symm⟩

theorem againDone {r : Registry} {name} (again : (registerFile layout r name).2.2 = true) :
    ∃ item, r.items.find (registerFile layout r name).2.1 = some item ∧ item.done = true := by
  unfold registerFile at *
  split at again
  · rename_i id item here
    refine ⟨item, DenseMap.findMem.mpr (List.mem_of_find?_eq_some here), ?_⟩
    simp only [Bool.and_eq_true, decide_eq_true_eq] at again
    simp only [Item.done, Bool.and_eq_true, decide_eq_true_eq]
    exact ⟨again.1, Nat.le_of_eq again.2.symm⟩
  · cases again

theorem pipesSound {w} (reach : Reachable ((system layout).under StepSound) w) : DoneSound layout w := by
  have inv := reachableInvariant runInvariant reach
  refine ⟨fun id mem => ?_, fun name again => ?_, fun all id item found => ?_⟩
  · have done := (askInvariant inv).finished id mem
    have same : (getDoneMorton w.registry).1.items = w.registry.items := by rw [ProcessorIdle.askFrame]
    dsimp only at done
    rw [doneId, same] at done
    cases found : w.registry.items.find id with
    | none => simp [found] at done
    | some item =>
      rw [found] at done
      exact doneInserted inv found done
  · obtain ⟨item, found, done⟩ := againDone again
    exact doneInserted inv found done
  · exact ⟨allRetired inv all found, doneInserted inv found (allDone inv all found)⟩

/-! Two files; the second fails its pre-init, the first has two chunks and its end is handled behind
both announcements. -/

def orderedActions : List Action :=
  [.registerFile [97], .registerFile [98], .preInit 0 (some 5) 10 4, .preInitFailed 1, .dispatch 0, .beginRead 0,
    .readChunk 0, .readChunk 0, .endRead 0, .takeSubAdded, .sortChunk 0 6 9, .sortChunk 0 7 12, .takeSorted,
    .insertChunk 0, .takeTreeDone, .closeFile 0, .takeSubAdded, .takeReadingDone, .takeSorted, .insertChunk 0,
    .takeTreeDone]

theorem orderedSound :
    DoneSound (appendLayout Nat Item) (orderedActions.foldl (perform (appendLayout Nat Item)) start) :=
  pipesSound (reachableAllowed (by decide))

/-! The end of a file overtakes the announcement of its second chunk: one chunk counted, one inserted. -/

def overtakingActions : List Action :=
  [.registerFile [97], .preInit 0 (some 5) 10 4, .dispatch 0, .beginRead 0, .readChunk 0, .readChunk 0, .endRead 0,
    .takeSubAdded, .sortChunk 0 6 9, .sortChunk 0 7 12, .takeSorted, .insertChunk 0, .takeTreeDone, .closeFile 0,
    .takeReadingDone]

theorem endOvertakes : ¬∀ layout w, Reachable (system layout) w → DoneSound layout w := by
  intro all
  have run : AllAllowed (fun w a => True ∧ Allowed w a) (perform (appendLayout Nat Item)) start
      overtakingActions := by decide
  have sound := all _ _ (reachableUnder (reachableAllowed run))
  have done : allInsertedIntoTree (overtakingActions.foldl (perform (appendLayout Nat Item)) start).registry =
      true := by decide
  have file : (overtakingActions.foldl (perform (appendLayout Nat Item)) start).registry.items.find 0 =
      some ⟨[97], 6, 9, 5, true, true, true, 1, 1, 10, 4⟩ := by decide
  have inserted := (sound.all done 0 _ file).2 [] _ (.nil _)
  exact absurd inserted (by decide)

end Dewfall.EventPipes
