import Dewfall.Converter.EventPipes
import Dewfall.Converter.InputSnapshot

/-! A conversion that is resumed from a checkpoint: the first session stops at any point, the second
starts with the restored registry and the trees of that checkpoint. `chunks` is how many chunks an
input has; a chunk is known by its file and its number. What any session keeps is proved here. -/
namespace Dewfall.InputResume
open General General.Transition InputRegistry InputSnapshot
open DoneBoundary (Changed changedFind changedKeep modifyItemChanged finishReadChanged Sequence rebuildFrame)
open EventPipes (Counted Kept Announced EverInserted valueOf valueFound)

structure World where
  pipes : EventPipes.World
  -- Chunks that were read and are not in the tree yet.
  way : List (Nat × Nat)
  tree : List (Nat × Nat)
  -- Files whose pre-init or reading failed in this session.
  failed : List Nat

def start : World := ⟨EventPipes.start, [], [], []⟩

inductive Action where
  | event (a : EventPipes.Action)
  | insertChunk (id sub : Nat)
  | failRead (id : Nat)
  deriving DecidableEq, Repr

variable (layout : Layout Nat Item) (chunks : Name → Nat)

def chunksOf (w : World) (id : Nat) : Nat := valueOf (fun item => chunks item.name) w.pipes.registry.items id

-- The chunks of a file are numbered from 0 in every session.
def follow (w : World) (a : EventPipes.Action) : World :=
  let after := { w with pipes := EventPipes.perform layout w.pipes a }
  match a with
  | .readChunk id => { after with way := w.way ++ [(id, (w.pipes.progress id).posted)] }
  | .preInitFailed id => { after with failed := id :: w.failed }
  | _ => after

def perform (w : World) : Action → World
  | .event a => follow layout w a
  | .insertChunk id sub =>
    { w with
      pipes := EventPipes.insertChunk w.pipes id
      way := w.way.erase (id, sub)
      tree := w.tree ++ [(id, sub)] }
  | .failRead id => { w with pipes := EventPipes.enter w.pipes id .read, failed := id :: w.failed }

def Fits (w : World) : EventPipes.Action → Prop
  | .readChunk id => (w.pipes.progress id).posted < chunksOf chunks w id
  | .endRead id => (w.pipes.progress id).posted = chunksOf chunks w id
  | .insertChunk _ => False
  | _ => True

instance (w) : (a : EventPipes.Action) → Decidable (Fits chunks w a)
  | .readChunk id => inferInstanceAs (Decidable ((w.pipes.progress id).posted < chunksOf chunks w id))
  | .endRead id => inferInstanceAs (Decidable ((w.pipes.progress id).posted = chunksOf chunks w id))
  | .insertChunk _ => inferInstanceAs (Decidable False)
  | .registerFile _ | .preInit .. | .preInitFailed _ | .dispatch _ | .beginRead _ | .sortChunk .. | .closeFile _
  | .takeSubAdded | .takeSorted | .takeReadingDone | .takeTreeDone | .askDoneMorton => inferInstanceAs (Decidable True)

def Allowed (w : World) : Action → Prop
  | .event a => EventPipes.Allowed w.pipes a ∧ Fits chunks w a
  | .insertChunk id sub => 0 < (w.pipes.progress id).stored ∧ (id, sub) ∈ w.way
  | .failRead id => (w.pipes.progress id).stage = .reading

instance (w a) : Decidable (Allowed chunks w a) := by
  cases a <;> dsimp only [Allowed] <;> infer_instance

def system : System World Action := System.ofFunction start (Allowed chunks) (perform layout)

/-! ## The second session -/

-- A file that stays in the dispatch list counts as read and inserted; no other file has a reader.
def progressOf (r : Registry) (id : Nat) : EventPipes.Progress :=
  if id ∈ r.sortedInputSources then ⟨.closed, valueOf Item.subCount r.items id, 0, 0, valueOf Item.subCount r.items id⟩
  else ⟨.idle, 0, 0, 0, 0⟩

def resume (next : Nat) (w : World) : Option World :=
  (deserialize layout next (serialize w.pipes.registry)).map fun r =>
    ⟨⟨r, progressOf r, [], [], [], []⟩, [], w.tree, []⟩

def Complete (w : World) (id : Nat) (item : Item) : Prop :=
  item.readFinished = true ∧ item.subCount = chunks item.name ∧ item.insertedIntoTree = chunks item.name ∧
    ∀ sub, w.tree.count (id, sub) = if sub < chunks item.name then 1 else 0

def Untouched (w : World) (id : Nat) (item : Item) : Prop :=
  item.readFinished = false ∧ item.subCount = 0 ∧ item.insertedIntoTree = 0 ∧ ∀ p ∈ w.tree, p.1 ≠ id

-- Where the checkpoint is taken every file is in the tree as a whole, and counted so, or not at all.
def Clean (w : World) : Prop :=
  ∀ id item, w.pipes.registry.items.find id = some item → Complete chunks w id item ∨ Untouched w id item

-- Files are dispatched, and given new orders, so that unfinished ones stand in the order of their codes.
def Orderly (r : Registry) : EventPipes.Action → Prop
  | .dispatch id => ∀ f ∈ r.sortedInputSources.drop 1, doneId r.items f = true ∨ orderOf r.items f ≤ orderOf r.items id
  | .preInit id order _ _ => Sequence (doneId r.items) (Function.update (orderOf r.items) id (order.getD 0))
      (r.sortedInputSources.drop 1)
  | _ => True

instance (r) : (a : EventPipes.Action) → Decidable (Orderly r a)
  | .dispatch id => inferInstanceAs (Decidable (∀ f ∈ r.sortedInputSources.drop 1,
      doneId r.items f = true ∨ orderOf r.items f ≤ orderOf r.items id))
  | .preInit id order _ _ => inferInstanceAs (Decidable (Sequence (doneId r.items)
      (Function.update (orderOf r.items) id (order.getD 0)) (r.sortedInputSources.drop 1)))
  | .registerFile _ | .preInitFailed _ | .beginRead _ | .readChunk _ | .endRead _ | .sortChunk .. | .closeFile _
  | .insertChunk _ | .takeSubAdded | .takeSorted | .takeReadingDone | .takeTreeDone | .askDoneMorton =>
    inferInstanceAs (Decidable True)

def StepSound (w : World) : Action → Prop
  | .event a => EventPipes.StepSound w.pipes a ∧ Orderly w.pipes.registry a
  | _ => True

instance (w a) : Decidable (StepSound w a) := by
  cases a <;> dsimp only [StepSound] <;> infer_instance

structure Ended (w : World) : Prop where
  subAdded : w.pipes.subAdded = []
  sorted : w.pipes.sorted = []
  readingDone : w.pipes.readingDone = []
  treeDone : w.pipes.treeDone = []
  readers : ∀ e ∈ w.pipes.registry.items.entries,
    (w.pipes.progress e.1).stage = .idle ∨ (w.pipes.progress e.1).stage = .closed
  chunks : ∀ e ∈ w.pipes.registry.items.entries,
    (w.pipes.progress e.1).unsorted = 0 ∧ (w.pipes.progress e.1).stored = 0
  dispatched : ∀ e ∈ w.pipes.registry.items.entries, e.2.readStarted = true

structure Sound (w : World) : Prop where
  boundary : ∀ boundary, (getDoneMorton w.pipes.registry).2 = some boundary → ∀ minCode : Nat → Nat,
    (∀ id item, w.pipes.registry.items.find id = some item → item.inputOrder ≤ minCode id) →
    ∀ id item, w.pipes.registry.items.find id = some item →
      ¬(item.readFinished = true ∧ EverInserted layout w.pipes id) → boundary ≤ minCode id
  inserted : Ended w → allInsertedIntoTree w.pipes.registry = true
  once : Ended w → ∀ id item, w.pipes.registry.items.find id = some item → id ∉ w.failed →
    ∀ sub, w.tree.count (id, sub) = if sub < chunks item.name then 1 else 0

variable {layout chunks}

/-! ## What a handler does to the entries -/

-- At most the files of `ids` are retired, and only a file that is dispatched or retired starts.
structure Follows (old item : Item) (k : Nat) (ids : Nat → Prop) (sorted : List Nat) : Prop where
  name : old.name = item.name
  started : item.readStarted = true → old.readStarted = true ∨ item.readFinished = true ∨ k ∈ sorted
  keeps : old.readFinished = true → item.readFinished = true
  retires : item.readFinished = true → old.readFinished = true ∨ ids k

theorem followsSelf (item : Item) (k : Nat) (ids : Nat → Prop) (sorted : List Nat) : Follows item item k ids sorted :=
  ⟨rfl, Or.inl, fun h => h, Or.inl⟩

structure Entries (r after : Registry) (ids : Nat → Prop) : Prop where
  entry : ∀ k item, after.items.find k = some item →
    (∃ old, r.items.find k = some old ∧ Follows old item k ids after.sortedInputSources) ∨
    (r.items.find k = none ∧ item.readStarted = false ∧ item.readFinished = false)
  present : ∀ k old, r.items.find k = some old →
    ∃ item, after.items.find k = some item ∧ Follows old item k ids after.sortedInputSources

theorem sameEntries {r after : Registry} (items : after.items = r.items) (ids : Nat → Prop) : Entries r after ids := by
  refine ⟨fun k item found => Or.inl ⟨item, items ▸ found, followsSelf ..⟩, fun k old found => ?_⟩
  exact ⟨old, items ▸ found, followsSelf ..⟩

theorem changedEntries {r after : Registry} {id f} {ids : Nat → Prop} (changed : Changed r.items after.items id f)
    (follows : ∀ item, Follows item (f item) id ids after.sortedInputSources) : Entries r after ids := by
  have each : ∀ k old, Follows old (if k = id then f old else old) k ids after.sortedInputSources := by
    intro k old
    split
    · rename_i same
      exact same ▸ follows old
    · exact followsSelf ..
  refine ⟨fun k item found => ?_, fun k old found => ⟨_, changedKeep changed found, each k old⟩⟩
  obtain ⟨old, there, rfl⟩ := changedFind changed found
  exact Or.inl ⟨old, there, each k old⟩

theorem registerEntries {r name} (shape : ProcessorIdle.Shape r) (ids : Nat → Prop) :
    Entries r (registerFile layout r name).1 ids := by
  unfold registerFile
  split
  · exact sameEntries rfl ids
  have absent : r.items.find r.nextInputId = none := by
    cases found : r.items.find r.nextInputId with
    | none => rfl
    | some item => exact absurd (shape.fresh _ item found) (Nat.lt_irrefl _)
  have added := @DenseMap.findEmplace _ _ _ layout _ _ absent (freshItem name)
  refine ⟨fun k item found => ?_, fun k old found => ⟨old, ?_, followsSelf ..⟩⟩
  · dsimp only at found
    rw [added] at found
    split at found
    · rename_i same
      cases found
      exact Or.inr ⟨same ▸ absent, rfl, rfl⟩
    · exact Or.inl ⟨item, found, followsSelf ..⟩
  · dsimp only
    rw [added, if_neg ?_]
    · exact found
    · rintro rfl
      rw [absent] at found
      cases found

theorem dispatchEntries {r : Registry} {id} (ids : Nat → Prop) : Entries r (nextInputToProcess r id) ids := by
  obtain ⟨items, _⟩ := rebuildFrame r
  have changed : Changed (rebuildUnsorted r).items (nextInputToProcess r id).items id
      fun item => { item with readStarted := true } := modifyItemChanged _ _ _
  rw [items] at changed
  refine changedEntries changed fun item => ⟨rfl, fun _ => Or.inr (Or.inr ?_), fun h => h, Or.inl⟩
  exact List.mem_append_right _ List.mem_cons_self

theorem failedEntries {r : Registry} {id} : Entries r (handleFileFailed r id) (· = id) := by
  have changed : Changed r.items (handleFileFailed r id).items id _ :=
    DoneBoundary.changedTrans (modifyItemChanged r.items id _) (finishReadChanged _ id)
  exact changedEntries changed fun item => ⟨rfl, fun _ => Or.inr (Or.inl rfl), fun _ => rfl, fun _ => Or.inr rfl⟩

def retiredBy (p : EventPipes.World) : EventPipes.Action → Nat → Prop
  | .preInitFailed id => (· = id)
  | .takeReadingDone => (· ∈ p.readingDone.head?)
  | _ => fun _ => False

theorem performEntries {p a} (counted : Counted p) :
    Entries p.registry (EventPipes.perform layout p a).registry (retiredBy p a) := by
  cases a with
  | registerFile name => exact registerEntries counted.shape _
  | preInit id order count size =>
    have changed : Changed p.registry.items (registerPreInitResult p.registry id order count size).items id _ :=
      modifyItemChanged p.registry.items id _
    exact changedEntries changed fun item => ⟨rfl, Or.inl, fun h => h, Or.inl⟩
  | preInitFailed id => exact failedEntries
  | dispatch id => exact dispatchEntries _
  | beginRead | readChunk | endRead | sortChunk | closeFile | insertChunk => exact sameEntries rfl _
  | takeSubAdded =>
    unfold EventPipes.perform EventPipes.takeSubAdded
    dsimp only
    split
    · exact sameEntries rfl _
    · exact changedEntries (EventPipes.subAddedChanged _ _) fun item => ⟨rfl, Or.inl, fun h => h, Or.inl⟩
  | takeSorted =>
    unfold EventPipes.perform EventPipes.takeSorted
    dsimp only
    split
    · exact sameEntries rfl _
    · exact changedEntries (ProcessorIdle.sortedChanged _ _ _ _) fun item => ⟨rfl, Or.inl, fun h => h, Or.inl⟩
  | takeReadingDone =>
    unfold EventPipes.perform EventPipes.takeReadingDone
    dsimp only
    split
    · exact sameEntries rfl _
    · rename_i id rest pipe
      refine changedEntries (finishReadChanged _ id) fun item => ⟨rfl, Or.inl, fun _ => rfl, fun _ => Or.inr ?_⟩
      rw [retiredBy, pipe]
      rfl
  | takeTreeDone =>
    unfold EventPipes.perform EventPipes.takeTreeDone
    dsimp only
    split
    · exact sameEntries rfl _
    · exact changedEntries (EventPipes.treeDoneChanged _ _) fun item => ⟨rfl, Or.inl, fun h => h, Or.inl⟩
  | askDoneMorton => exact sameEntries (by show (getDoneMorton _).1.items = _; rw [ProcessorIdle.askFrame]) _

/-! ## Readers and the dispatch list -/

structure Listed (p : EventPipes.World) : Prop where
  distinct : p.registry.sortedInputSources.Nodup
  dispatched : ∀ id, (p.progress id).stage ≠ .idle ↔ id ∈ p.registry.sortedInputSources
  outside : ∀ id item, p.registry.items.find id = some item → item.readStarted = true →
    id ∉ p.registry.sortedInputSources → item.readFinished = true
  closing : ∀ id, (p.progress id).stage = .closed →
    id ∈ p.readingDone ∨ ∃ item ∈ p.registry.items.find id, item.readFinished = true

theorem startListed : Listed EventPipes.start := by
  refine ⟨List.nodup_nil, fun id => ?_, fun id item found => ?_, fun id closed => ?_⟩
  · simp [EventPipes.start, empty]
  · cases found
  · cases closed

theorem listedStep {p after : EventPipes.World} {ids} (listed : Listed p)
    (entries : Entries p.registry after.registry ids)
    (sorted : after.registry.sortedInputSources = p.registry.sortedInputSources)
    (stage : ∀ id, (after.progress id).stage = .idle ↔ (p.progress id).stage = .idle)
    (closing : ∀ id, (after.progress id).stage = .closed → id ∈ after.readingDone ∨
      (p.progress id).stage = .closed ∧
        (id ∈ p.readingDone → ∃ item ∈ after.registry.items.find id, item.readFinished = true)) : Listed after := by
  refine ⟨sorted ▸ listed.distinct, fun id => ?_, fun id item found started away => ?_, fun id closed => ?_⟩
  · rw [sorted, ← listed.dispatched id, Ne, stage id]
  · rcases entries.entry id item found with ⟨old, there, follows⟩ | ⟨_, idle, _⟩
    · rw [sorted] at follows
      rw [sorted] at away
      rcases follows.started started with earlier | finished | mem
      · exact follows.keeps (listed.outside id old there earlier away)
      · exact finished
      · exact absurd mem away
    · exact absurd (idle.symm.trans started) (by decide)
  · rcases closing id closed with mem | ⟨earlier, gone⟩
    · exact Or.inl mem
    · rcases listed.closing id earlier with mem | ⟨old, there, finished⟩
      · exact Or.inr (gone mem)
      · obtain ⟨item, found, follows⟩ := entries.present id old there
        exact Or.inr ⟨item, found, follows.keeps finished⟩

-- Registry steps leave the readers alone.
theorem listedRegistry {p after : EventPipes.World} {ids} (listed : Listed p)
    (entries : Entries p.registry after.registry ids)
    (sorted : after.registry.sortedInputSources = p.registry.sortedInputSources)
    (progress : ∀ id, (after.progress id).stage = (p.progress id).stage) (reading : after.readingDone = p.readingDone) :
    Listed after := by
  refine listedStep listed entries sorted (fun id => by rw [progress]) fun id closed => ?_
  rw [progress] at closed
  by_cases mem : id ∈ p.readingDone
  · exact Or.inl (reading ▸ mem)
  · exact Or.inr ⟨closed, fun here => absurd here mem⟩

theorem updateStage {p after : EventPipes.World} {id q} (progress : after.progress = Function.update p.progress id q)
    (keeps : q.stage = (p.progress id).stage) (k : Nat) : (after.progress k).stage = (p.progress k).stage := by
  rw [progress]
  by_cases same : k = id
  · rw [same, Function.update_self, keeps]
  · rw [Function.update_of_ne same]

theorem enterListed {p : EventPipes.World} {id stage} (listed : Listed p) (busy : (p.progress id).stage ≠ .idle)
    (entered : stage ≠ .idle) (open_ : stage ≠ .closed) : Listed (EventPipes.enter p id stage) := by
  refine listedStep listed (sameEntries rfl fun _ => False) rfl (fun k => ?_) fun k closed => ?_
  · unfold EventPipes.enter EventPipes.update
    dsimp only
    by_cases same : k = id
    · rw [same, Function.update_self]
      exact ⟨fun idle => absurd idle entered, fun idle => absurd idle busy⟩
    · rw [Function.update_of_ne same]
  · unfold EventPipes.enter EventPipes.update at closed
    dsimp only at closed
    by_cases same : k = id
    · rw [same, Function.update_self] at closed
      exact absurd closed open_
    · rw [Function.update_of_ne same] at closed
      by_cases mem : k ∈ p.readingDone
      · exact Or.inl mem
      · exact Or.inr ⟨closed, fun here => absurd here mem⟩

theorem closeListed {p : EventPipes.World} {id} (listed : Listed p) (busy : (p.progress id).stage ≠ .idle) :
    Listed (EventPipes.closeFile p id) := by
  refine listedStep listed (sameEntries rfl fun _ => False) rfl (fun k => ?_) fun k closed => ?_
  · unfold EventPipes.closeFile EventPipes.enter EventPipes.update
    dsimp only
    by_cases same : k = id
    · rw [same, Function.update_self]
      exact ⟨fun idle => absurd idle (by simp), fun idle => absurd idle busy⟩
    · rw [Function.update_of_ne same]
  · unfold EventPipes.closeFile EventPipes.enter EventPipes.update at closed ⊢
    dsimp only at closed ⊢
    by_cases same : k = id
    · exact Or.inl (same ▸ List.mem_append_right _ List.mem_cons_self)
    · rw [Function.update_of_ne same] at closed
      by_cases mem : k ∈ p.readingDone
      · exact Or.inl (List.mem_append_left _ mem)
      · exact Or.inr ⟨closed, fun here => absurd here mem⟩

theorem dispatchListed {p : EventPipes.World} {id} (counted : Counted p) (listed : Listed p)
    (next : Next p.registry id) :
    Listed (EventPipes.enter { p with registry := nextInputToProcess p.registry id } id .queued) := by
  obtain ⟨waiting, there, unstarted, _⟩ := ProcessorIdle.nextUnread counted.shape next
  have sorted : (nextInputToProcess p.registry id).sortedInputSources = p.registry.sortedInputSources ++ [id] :=
    congrArg (· ++ [id]) (rebuildFrame p.registry).2.1
  have fresh : id ∉ p.registry.sortedInputSources := by
    intro mem
    obtain ⟨item, found, started⟩ := counted.shape.started id mem
    cases Option.some.inj (found.symm.trans there)
    exact absurd (started.symm.trans unstarted) (by decide)
  have entries := @dispatchEntries p.registry id fun _ => False
  unfold EventPipes.enter EventPipes.update
  refine ⟨?_, fun k => ?_, fun k item found started away => ?_, fun k closed => ?_⟩
  · dsimp only
    rw [sorted]
    refine List.nodup_append.mpr ⟨listed.distinct, List.nodup_singleton id, fun k mem other last same => ?_⟩
    rw [List.mem_singleton.mp last] at same
    exact fresh (same ▸ mem)
  · dsimp only
    rw [sorted, List.mem_append, List.mem_singleton]
    by_cases same : k = id
    · rw [same, Function.update_self]
      exact ⟨fun _ => Or.inr rfl, fun _ => by simp⟩
    · rw [Function.update_of_ne same, listed.dispatched k]
      exact ⟨Or.inl, fun either => either.resolve_right same⟩
  · dsimp only at found away
    rcases entries.entry k item found with ⟨old, before, follows⟩ | ⟨_, idle, _⟩
    · have outside : k ∉ p.registry.sortedInputSources := fun mem => away (sorted ▸ List.mem_append_left _ mem)
      rcases follows.started started with earlier | finished | mem
      · exact follows.keeps (listed.outside k old before earlier outside)
      · exact finished
      · exact absurd mem away
    · exact absurd (idle.symm.trans started) (by decide)
  · dsimp only at closed ⊢
    by_cases same : k = id
    · rw [same, Function.update_self] at closed
      cases closed
    · rw [Function.update_of_ne same] at closed
      rcases listed.closing k closed with mem | ⟨old, before, finished⟩
      · exact Or.inl mem
      · obtain ⟨item, found, follows⟩ := entries.present k old before
        exact Or.inr ⟨item, found, follows.keeps finished⟩

theorem readingDoneListed {p : EventPipes.World} (counted : Counted p) (listed : Listed p) :
    Listed (EventPipes.takeReadingDone p) := by
  have entries := @performEntries (appendLayout Nat Item) p .takeReadingDone counted
  unfold EventPipes.perform EventPipes.takeReadingDone at *
  dsimp only at *
  split at entries
  · exact listed
  · rename_i id rest pipe
    obtain ⟨_, sorted, _⟩ := DoneBoundary.finishReadFrame p.registry id
    refine listedStep listed entries sorted (fun _ => Iff.rfl) fun k closed => ?_
    by_cases mem : k ∈ rest
    · exact Or.inl mem
    refine Or.inr ⟨closed, fun here => ?_⟩
    have same : k = id := (List.mem_cons.mp (pipe ▸ here)).resolve_right mem
    have mine : (p.progress id).stage = .closed := same ▸ closed
    obtain ⟨item, found, _⟩ := counted.started id (by rw [mine]; decide)
    refine ⟨_, changedKeep (finishReadChanged p.registry id) (same ▸ found), ?_⟩
    rw [if_pos same]

theorem performListed {p a} (counted : Counted p) (listed : Listed p) (allowed : EventPipes.Allowed p a) :
    Listed (EventPipes.perform layout p a) := by
  have entries := @performEntries layout p a counted
  cases a with
  | registerFile name =>
    refine listedRegistry listed entries ?_ (fun _ => rfl) rfl
    exact (@EventPipes.registerStill layout p.registry name counted.shape fun _ => False).sorted
  | preInit => exact listedRegistry listed entries rfl (fun _ => rfl) rfl
  | preInitFailed id =>
    exact listedRegistry listed entries (EventPipes.failedStill p.registry id).sorted (fun _ => rfl) rfl
  | dispatch id => exact dispatchListed counted listed allowed
  | beginRead id =>
    have queued : (p.progress id).stage = .queued := allowed
    exact enterListed listed (by rw [queued]; decide) (by decide) (by decide)
  | endRead id =>
    have reading : (p.progress id).stage = .reading := allowed
    exact enterListed listed (by rw [reading]; decide) (by decide) (by decide)
  | readChunk id => exact listedRegistry listed entries rfl (updateStage rfl rfl) rfl
  | sortChunk id min max => exact listedRegistry listed entries rfl (updateStage rfl rfl) rfl
  | insertChunk id => exact listedRegistry listed entries rfl (updateStage rfl rfl) rfl
  | closeFile id =>
    have read : (p.progress id).stage = .read := allowed.1
    exact closeListed listed (by rw [read]; decide)
  | takeSubAdded =>
    unfold EventPipes.perform EventPipes.takeSubAdded at *
    dsimp only at *
    split at entries
    · exact listed
    · exact listedRegistry listed entries rfl (fun _ => rfl) rfl
  | takeSorted =>
    unfold EventPipes.perform EventPipes.takeSorted at *
    dsimp only at *
    split at entries
    · exact listed
    · exact listedRegistry listed entries rfl (updateStage rfl rfl) rfl
  | takeReadingDone => exact readingDoneListed counted listed
  | takeTreeDone =>
    unfold EventPipes.perform EventPipes.takeTreeDone at *
    dsimp only at *
    split at entries
    · exact listed
    · exact listedRegistry listed entries rfl (fun _ => rfl) rfl
  | askDoneMorton =>
    refine listedRegistry listed entries ?_ (fun _ => rfl) rfl
    show (getDoneMorton p.registry).1.sortedInputSources = _
    rw [ProcessorIdle.askFrame]

/-! ## Where the chunks are -/

def pipesAction : Action → EventPipes.Action
  | .event a => a
  | .insertChunk id _ => .insertChunk id
  | .failRead id => .endRead id

theorem performPipes (w : World) (a : Action) :
    (perform layout w a).pipes = EventPipes.perform layout w.pipes (pipesAction a) := by
  cases a with
  | event a =>
    cases a with
    | _ => rfl
  | insertChunk id sub => rfl
  | failRead id => rfl

theorem allowedPipes {w a} (allowed : Allowed chunks w a) : EventPipes.Allowed w.pipes (pipesAction a) := by
  cases a with
  | event a => exact allowed.1
  | insertChunk id sub => exact allowed.1
  | failRead id => exact allowed

structure Placed (w : World) : Prop where
  counted : Counted w.pipes
  listed : Listed w.pipes
  ways : ∀ id, (w.way.map Prod.fst).count id + (w.pipes.progress id).inserted = (w.pipes.progress id).posted
  each : ∀ id sub, w.way.count (id, sub) + w.tree.count (id, sub) =
    if sub < (w.pipes.progress id).posted then 1 else 0

theorem startPlaced : Placed start :=
  ⟨EventPipes.startCounted, startListed, fun _ => rfl, fun _ _ => rfl⟩

-- Only reading and inserting move a chunk.
theorem updateMoves {p after : EventPipes.World} (id : Nat) {q} (progress : after.progress = Function.update p.progress id q)
    (posted : q.posted = (p.progress id).posted) (inserted : q.inserted = (p.progress id).inserted) (k : Nat) :
    (after.progress k).posted = (p.progress k).posted ∧ (after.progress k).inserted = (p.progress k).inserted := by
  rw [progress]
  by_cases same : k = id
  · rw [same, Function.update_self]
    exact ⟨posted, inserted⟩
  · rw [Function.update_of_ne same]
    exact ⟨rfl, rfl⟩

theorem performMoves {p a} (read : ∀ id, a ≠ .readChunk id) (insert : ∀ id, a ≠ .insertChunk id) (k : Nat) :
    ((EventPipes.perform layout p a).progress k).posted = (p.progress k).posted ∧
      ((EventPipes.perform layout p a).progress k).inserted = (p.progress k).inserted := by
  cases a with
  | registerFile | preInit | preInitFailed | askDoneMorton => exact ⟨rfl, rfl⟩
  | readChunk id => exact absurd rfl (read id)
  | insertChunk id => exact absurd rfl (insert id)
  | dispatch id | beginRead id | endRead id | sortChunk id _ _ | closeFile id => exact updateMoves id rfl (by rfl) (by rfl) k
  | takeSubAdded =>
    unfold EventPipes.perform EventPipes.takeSubAdded
    dsimp only
    split
    · exact ⟨rfl, rfl⟩
    · exact ⟨rfl, rfl⟩
  | takeSorted =>
    unfold EventPipes.perform EventPipes.takeSorted
    dsimp only
    split
    · exact ⟨rfl, rfl⟩
    · rename_i id _ _ _ _
      exact updateMoves id rfl (by rfl) (by rfl) k
  | takeReadingDone =>
    unfold EventPipes.perform EventPipes.takeReadingDone
    dsimp only
    split
    · exact ⟨rfl, rfl⟩
    · exact ⟨rfl, rfl⟩
  | takeTreeDone =>
    unfold EventPipes.perform EventPipes.takeTreeDone
    dsimp only
    split
    · exact ⟨rfl, rfl⟩
    · exact ⟨rfl, rfl⟩

theorem performPosted {p a k} (away : a ≠ .readChunk k) :
    ((EventPipes.perform layout p a).progress k).posted = (p.progress k).posted := by
  by_cases read : ∃ id, a = .readChunk id
  · obtain ⟨id, rfl⟩ := read
    have other : k ≠ id := fun same => away (by rw [same])
    unfold EventPipes.perform EventPipes.readChunk EventPipes.update
    dsimp only
    rw [Function.update_of_ne other]
  by_cases insert : ∃ id, a = .insertChunk id
  · obtain ⟨id, rfl⟩ := insert
    unfold EventPipes.perform EventPipes.insertChunk EventPipes.update
    dsimp only
    by_cases same : k = id
    · rw [same, Function.update_self]
    · rw [Function.update_of_ne same]
  exact (performMoves (fun id same => read ⟨id, same⟩) (fun id same => insert ⟨id, same⟩) k).1

theorem readPlaced {w id} (placed : Placed w) (counted : Counted (EventPipes.readChunk w.pipes id))
    (listed : Listed (EventPipes.readChunk w.pipes id)) :
    Placed ⟨EventPipes.readChunk w.pipes id, w.way ++ [(id, (w.pipes.progress id).posted)], w.tree, w.failed⟩ := by
  have moved : ∀ k, ((EventPipes.readChunk w.pipes id).progress k).inserted = (w.pipes.progress k).inserted ∧
      ((EventPipes.readChunk w.pipes id).progress k).posted =
        (w.pipes.progress k).posted + if k = id then 1 else 0 := by
    intro k
    unfold EventPipes.readChunk EventPipes.update
    dsimp only
    by_cases same : k = id
    · rw [same, Function.update_self, if_pos rfl]
      exact ⟨rfl, rfl⟩
    · rw [Function.update_of_ne same, if_neg same]
      exact ⟨rfl, rfl⟩
  refine ⟨counted, listed, fun k => ?_, fun k sub => ?_⟩
  · have before := placed.ways k
    dsimp only
    rw [(moved k).1, (moved k).2, List.map_append, List.count_append, List.map_cons, List.map_nil,
      List.count_singleton]
    by_cases same : k = id
    · simp only [same, beq_self_eq_true, if_true] at before ⊢
      omega
    · rw [if_neg (by simpa using fun h => same h.symm), if_neg same]
      exact before
  · have before := placed.each k sub
    dsimp only
    rw [(moved k).2, List.count_append, List.count_singleton]
    by_cases same : k = id
    · subst same
      by_cases here : sub = (w.pipes.progress k).posted
      · subst here
        rw [if_neg (Nat.lt_irrefl _)] at before
        simp only [beq_self_eq_true, if_true, Nat.lt_add_one]
        omega
      · rw [if_neg (by simpa using fun h => here h.symm), Nat.add_zero, before, if_pos rfl]
        refine if_congr ?_ rfl rfl
        omega
    · rw [if_neg same, if_neg (by simpa using fun h => absurd h.symm same)]
      exact before

theorem insertPlaced {w id sub} (placed : Placed w) (mem : (id, sub) ∈ w.way)
    (counted : Counted (EventPipes.insertChunk w.pipes id)) (listed : Listed (EventPipes.insertChunk w.pipes id)) :
    Placed ⟨EventPipes.insertChunk w.pipes id, w.way.erase (id, sub), w.tree ++ [(id, sub)], w.failed⟩ := by
  have taken := List.perm_cons_erase mem
  have posted : ∀ k, ((EventPipes.insertChunk w.pipes id).progress k).posted = (w.pipes.progress k).posted := by
    intro k
    unfold EventPipes.insertChunk EventPipes.update
    dsimp only
    by_cases same : k = id
    · rw [same, Function.update_self]
    · rw [Function.update_of_ne same]
  refine ⟨counted, listed, fun k => ?_, fun k other => ?_⟩
  · have before := placed.ways k
    rw [(taken.map Prod.fst).count_eq k, List.map_cons, List.count_cons] at before
    dsimp only
    rw [posted k]
    unfold EventPipes.insertChunk EventPipes.update
    dsimp only
    by_cases same : k = id
    · subst same
      rw [Function.update_self]
      simp only [beq_self_eq_true, if_true] at before
      dsimp only
      omega
    · rw [Function.update_of_ne same]
      rw [if_neg (by simpa using fun h => same h.symm)] at before
      exact before
  · have before := placed.each k other
    dsimp only
    rw [posted k, ← before, taken.count_eq (k, other), List.count_cons, List.count_append, List.count_singleton]
    omega

theorem performPlaced {w a} (placed : Placed w) (allowed : Allowed chunks w a) : Placed (perform layout w a) := by
  have reached := allowedPipes allowed
  have counted := @EventPipes.performCounted layout _ _ placed.counted reached
  have listed := @performListed layout _ _ placed.counted placed.listed reached
  have still : ∀ after : World, after.pipes = EventPipes.perform layout w.pipes (pipesAction a) → after.way = w.way →
      after.tree = w.tree → (∀ id, pipesAction a ≠ .readChunk id) → (∀ id, pipesAction a ≠ .insertChunk id) →
      Placed after := by
    intro after pipes way tree read insert
    have moves := @performMoves layout w.pipes _ read insert
    refine ⟨pipes ▸ counted, pipes ▸ listed, fun k => ?_, fun k sub => ?_⟩
    · rw [pipes, way, (moves k).1, (moves k).2]
      exact placed.ways k
    · rw [pipes, way, tree, (moves k).1]
      exact placed.each k sub
  cases a with
  | insertChunk id sub => exact insertPlaced placed allowed.2 counted listed
  | failRead id => exact still _ rfl rfl rfl (fun _ h => by cases h) fun _ h => by cases h
  | event a =>
    cases a with
    | readChunk id => exact readPlaced placed counted listed
    | insertChunk id => exact False.elim allowed.2
    | _ => exact still _ rfl rfl rfl (fun _ h => by cases h) fun _ h => by cases h

theorem runPlaced : Inductive (system layout chunks) Placed := by
  constructor
  · intro w first
    cases first
    exact startPlaced
  · intro w a after placed step
    obtain ⟨allowed, rfl⟩ := step
    exact performPlaced placed allowed

end Dewfall.InputResume
