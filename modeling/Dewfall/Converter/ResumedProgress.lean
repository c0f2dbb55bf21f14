import Dewfall.Converter.InputResume
import Dewfall.General.Progress
import Mathlib.Data.Finset.Max
import Mathlib.Data.Finset.Dedup

/-! That a session ends: once the pre-init results of all files are in, every run of the converter's own
steps comes to a state with nothing left to do. The price of a step is paid by the file it moves and by
the pipes. -/
namespace Dewfall.ResumedProgress
open General General.Transition InputRegistry InputResume
open DoneBoundary (Changed changedFind changedKeep modifyItemChanged finishReadChanged rebuildFrame)
open EventPipes (Counted valueOf valueFound)

/-! ## The converter's own steps -/

-- Every file that is registered has been through the pre-init.
def Settled (r : Registry) : Prop := ∀ id item, r.items.find id = some item → item.preInitSettled = true

-- Files are added, and the boundary is asked for, from outside; an empty pipe gives nothing to take.
def Works (p : EventPipes.World) : EventPipes.Action → Prop
  | .registerFile _ | .preInit .. | .preInitFailed _ | .askDoneMorton => False
  | .takeSubAdded => p.subAdded ≠ []
  | .takeSorted => p.sorted ≠ []
  | .takeReadingDone => p.readingDone ≠ []
  | .takeTreeDone => p.treeDone ≠ []
  | _ => True

-- Whether a reading may still fail is left open.
def Own (fails : Bool) (w : World) : Action → Prop
  | .event a => Works w.pipes a
  | .insertChunk _ _ => True
  | .failRead _ => fails = true

variable (layout : Layout Nat Item) (chunks : Name → Nat)

def working (fails : Bool) : System World Action :=
  (system layout chunks).under fun w a => StepSound w a ∧ Own fails w a

/-! ## What is left to do -/

def chunksIn (r : Registry) (id : Nat) : Nat := valueOf (fun item => chunks item.name) r.items id
def waits (r : Registry) (id : Nat) : Nat := valueOf (fun item => (!item.readStarted).toNat) r.items id

def stageWork (stage : EventPipes.Stage) (all posted waits : Nat) : Nat :=
  match stage with
  | .idle => if waits = 0 then 0 else 5 + 6 * all
  | .queued => 4 + 6 * all
  | .reading => 3 + 6 * (all - posted)
  | .read => 2
  | .closed => 0

def fileWork (p : EventPipes.World) (id : Nat) : Nat :=
  stageWork (p.progress id).stage (chunksIn chunks p.registry id) (p.progress id).posted (waits p.registry id) +
    4 * (p.progress id).unsorted + 2 * (p.progress id).stored

def pipeWork (p : EventPipes.World) : Nat :=
  p.subAdded.length + 3 * p.sorted.length + p.readingDone.length + p.treeDone.length

def work (p : EventPipes.World) : Nat := (p.registry.items.keys.map (fileWork chunks p)).sum + pipeWork p

variable {layout chunks}

theorem keyFound {items : DenseMap Nat Item} {id item} (found : items.find id = some item) : id ∈ items.keys := by
  by_contra away
  rw [DenseMap.findKeys.mpr away] at found
  cases found

theorem ownDrops {p after : EventPipes.World} {id item} (found : p.registry.items.find id = some item)
    (keys : after.registry.items.keys = p.registry.items.keys)
    (others : ∀ k, k ≠ id → fileWork chunks after k = fileWork chunks p k)
    (own : fileWork chunks after id + pipeWork after < fileWork chunks p id + pipeWork p) :
    work chunks after < work chunks p := by
  have moved := sumUpdate p.registry.items.distinct (keyFound found) others
  unfold work
  rw [keys]
  change (List.map _ p.registry.items.keys).sum + _ = (List.map _ p.registry.items.keys).sum + _ at moved
  omega

-- A step of one file's own progress.
theorem updateDrops {p after : EventPipes.World} {id item q} (found : p.registry.items.find id = some item)
    (registry : after.registry = p.registry) (progress : after.progress = Function.update p.progress id q)
    (own : stageWork q.stage (chunksIn chunks p.registry id) q.posted (waits p.registry id) + 4 * q.unsorted +
      2 * q.stored + pipeWork after < fileWork chunks p id + pipeWork p) : work chunks after < work chunks p := by
  refine ownDrops found (by rw [registry]) (fun k away => ?_) ?_
  · rw [fileWork, fileWork, registry, progress, Function.update_of_ne away]
  · rw [fileWork, registry, progress, Function.update_self]
    exact own

/-! ## What a handler leaves of the entries -/

structure Steady (before after : DenseMap Nat Item) : Prop where
  keys : after.keys = before.keys
  entry : ∀ k item, after.find k = some item → ∃ old, before.find k = some old ∧ item.name = old.name ∧
    item.readStarted = old.readStarted ∧ item.preInitSettled = old.preInitSettled

theorem steadyValue {before after : DenseMap Nat Item} (steady : Steady before after) {g : Item → Nat}
    (depends : ∀ old item : Item, item.name = old.name → item.readStarted = old.readStarted → g item = g old) (id : Nat) :
    valueOf g after id = valueOf g before id := by
  cases found : after.find id with
  | none =>
    have away : before.find id = none := by
      rw [DenseMap.findKeys, ← steady.keys, ← DenseMap.findKeys]
      exact found
    rw [valueOf, valueOf, found, away]
  | some item =>
    obtain ⟨old, there, name, started, _⟩ := steady.entry id item found
    rw [valueFound found, valueFound there]
    exact depends old item name started

theorem steadyChunks {r after : Registry} (steady : Steady r.items after.items) (id : Nat) :
    chunksIn chunks after id = chunksIn chunks r id :=
  steadyValue steady (fun _ _ name _ => congrArg chunks name) id

theorem steadyWaits {r after : Registry} (steady : Steady r.items after.items) (id : Nat) :
    waits after id = waits r id :=
  steadyValue steady (fun _ _ _ started => congrArg (fun b => (!b).toNat) started) id

theorem changedSteady {before after : DenseMap Nat Item} {id f} (changed : Changed before after id f)
    (keys : after.keys = before.keys)
    (keeps : ∀ item, (f item).name = item.name ∧ (f item).readStarted = item.readStarted ∧
      (f item).preInitSettled = item.preInitSettled) : Steady before after := by
  refine ⟨keys, fun k item found => ?_⟩
  obtain ⟨old, there, rfl⟩ := changedFind changed found
  refine ⟨old, there, ?_⟩
  split
  · exact keeps old
  · exact ⟨rfl, rfl, rfl⟩

theorem modifyKeys (items : DenseMap Nat Item) (id : Nat) (f : Item → Item) : (modifyItem items id f).keys = items.keys := by
  unfold modifyItem
  split
  · rfl
  · exact DenseMap.assignKeys ..

theorem modifySteady (items : DenseMap Nat Item) (id : Nat) {f : Item → Item}
    (keeps : ∀ item, (f item).name = item.name ∧ (f item).readStarted = item.readStarted ∧
      (f item).preInitSettled = item.preInitSettled) : Steady items (modifyItem items id f) :=
  changedSteady (modifyItemChanged items id f) (modifyKeys items id f) keeps

theorem finishSteady (r : Registry) (id : Nat) : Steady r.items (finishRead r id).items := by
  refine changedSteady (finishReadChanged r id) ?_ fun _ => ⟨rfl, rfl, rfl⟩
  unfold finishRead
  split
  · rfl
  · split
    · rfl
    · exact DenseMap.assignKeys ..

theorem sameSteady (items : DenseMap Nat Item) : Steady items items := ⟨rfl, fun _ item found => ⟨item, found, rfl, rfl, rfl⟩⟩

-- Only a dispatch starts a file.
theorem worksSteady {p a} (works : Works p a) (other : ∀ id, a ≠ .dispatch id) :
    Steady p.registry.items (EventPipes.perform layout p a).registry.items := by
  cases a with
  | registerFile | preInit | preInitFailed | askDoneMorton => cases works
  | dispatch id => exact absurd rfl (other id)
  | beginRead | readChunk | endRead | sortChunk | closeFile | insertChunk => exact sameSteady _
  | takeSubAdded =>
    unfold EventPipes.perform EventPipes.takeSubAdded
    dsimp only
    split
    · exact sameSteady _
    · exact modifySteady _ _ fun _ => ⟨rfl, rfl, rfl⟩
  | takeSorted =>
    unfold EventPipes.perform EventPipes.takeSorted
    dsimp only
    split
    · exact sameSteady _
    · exact modifySteady _ _ fun _ => ⟨rfl, rfl, rfl⟩
  | takeReadingDone =>
    unfold EventPipes.perform EventPipes.takeReadingDone
    dsimp only
    split
    · exact sameSteady _
    · exact finishSteady _ _
  | takeTreeDone =>
    unfold EventPipes.perform EventPipes.takeTreeDone
    dsimp only
    split
    · exact sameSteady _
    · exact modifySteady _ _ fun _ => ⟨rfl, rfl, rfl⟩

theorem dispatchChanged (r : Registry) (id : Nat) : Changed r.items (nextInputToProcess r id).items id
    fun item => { item with readStarted := true } := by
  obtain ⟨items, _⟩ := rebuildFrame r
  have changed : Changed (rebuildUnsorted r).items (nextInputToProcess r id).items id
      fun item => { item with readStarted := true } := modifyItemChanged _ _ _
  rwa [items] at changed

theorem dispatchKeys (r : Registry) (id : Nat) : (nextInputToProcess r id).items.keys = r.items.keys := by
  obtain ⟨items, _⟩ := rebuildFrame r
  have keys : (nextInputToProcess r id).items.keys = (rebuildUnsorted r).items.keys := modifyKeys _ _ _
  rwa [items] at keys

theorem worksSettled {p a} (settled : Settled p.registry) (works : Works p a) :
    Settled (EventPipes.perform layout p a).registry := by
  intro k item found
  by_cases dispatch : ∃ id, a = .dispatch id
  · obtain ⟨id, rfl⟩ := dispatch
    obtain ⟨old, there, rfl⟩ := changedFind (dispatchChanged p.registry id) found
    have before := settled k old there
    split
    · exact before
    · exact before
  · obtain ⟨old, there, _, _, same⟩ := (worksSteady works fun id same => dispatch ⟨id, same⟩).entry k item found
    exact same.trans (settled k old there)

/-! ## Every step lowers what is left -/

-- A pipe is emptied by one, and no file moves.
theorem takeDrops {p after : EventPipes.World} (steady : Steady p.registry.items after.registry.items)
    (progress : after.progress = p.progress) (less : pipeWork after < pipeWork p) : work chunks after < work chunks p := by
  have same : fileWork chunks after = fileWork chunks p := by
    funext k
    rw [fileWork, fileWork, progress, steadyChunks steady, steadyWaits steady]
  unfold work
  rw [same, steady.keys]
  omega

theorem dispatchDrops {p id} (counted : Counted p) (next : Next p.registry id) :
    work chunks (EventPipes.perform layout p (.dispatch id)) < work chunks p := by
  obtain ⟨item, found, unstarted, _⟩ := ProcessorIdle.nextUnread counted.shape next
  have there : p.registry.items.find id = some item := found
  have idle : (p.progress id).stage = .idle := by
    by_contra busy
    obtain ⟨other, here, started⟩ := counted.started id busy
    cases Option.some.inj (here.symm.trans there)
    exact absurd (unstarted.symm.trans started) Bool.false_ne_true
  have changed := dispatchChanged p.registry id
  refine ownDrops there (dispatchKeys p.registry id) (fun k away => ?_) ?_
  · have same : (nextInputToProcess p.registry id).items.find k = p.registry.items.find k := (changed k).trans (if_neg away)
    have progress : (EventPipes.perform layout p (.dispatch id)).progress k = p.progress k := Function.update_of_ne away _ _
    rw [fileWork, fileWork, progress]
    unfold chunksIn waits valueOf EventPipes.perform
    dsimp only [EventPipes.enter, EventPipes.update]
    rw [same]
  · have progress : (EventPipes.perform layout p (.dispatch id)).progress id = { p.progress id with stage := .queued } :=
      Function.update_self ..
    have all : chunksIn chunks (nextInputToProcess p.registry id) id = chunksIn chunks p.registry id :=
      EventPipes.valueChanged changed (fun _ => rfl) id
    have waiting : waits p.registry id = 1 := by rw [waits, valueFound there, unstarted]; rfl
    rw [fileWork, fileWork, progress, idle, waiting]
    show stageWork .queued (chunksIn chunks (nextInputToProcess p.registry id) id) _ _ + _ + _ + pipeWork p < _
    rw [all]
    simp only [stageWork, Nat.one_ne_zero, if_false]
    omega

theorem chunkFound {p : EventPipes.World} {id} (counted : Counted p)
    (some_ : 0 < (p.progress id).unsorted + (p.sorted.map Prod.fst).count id + (p.progress id).stored) :
    ∃ item, p.registry.items.find id = some item := by
  have flow := counted.flow id
  obtain ⟨item, found, _⟩ := EventPipes.postedFound id counted (by omega)
  exact ⟨item, found⟩

theorem busyFound {p : EventPipes.World} {id stage} (counted : Counted p) (here : (p.progress id).stage = stage)
    (busy : stage ≠ .idle) : ∃ item, p.registry.items.find id = some item := by
  obtain ⟨item, found, _⟩ := counted.started id (here ▸ busy)
  exact ⟨item, found⟩

theorem sortedDrops {p} (counted : Counted p) (some_ : p.sorted ≠ []) :
    work chunks (EventPipes.perform layout p .takeSorted) < work chunks p := by
  obtain ⟨⟨id, min, max⟩, rest, pipe⟩ := List.exists_cons_of_ne_nil some_
  obtain ⟨item, found⟩ := @chunkFound p id counted (by rw [pipe, List.map_cons, List.count_cons_self]; omega)
  have steady : Steady p.registry.items (handleSortedPoints p.registry id min max).items :=
    modifySteady _ _ fun _ => ⟨rfl, rfl, rfl⟩
  have step : EventPipes.perform layout p .takeSorted = EventPipes.update { p with
      sorted := rest
      registry := handleSortedPoints p.registry id min max } id fun q => { q with stored := q.stored + 1 } := by
    unfold EventPipes.perform EventPipes.takeSorted
    dsimp only
    rw [pipe]
  rw [step]
  refine ownDrops found steady.keys (fun k away => ?_) ?_
  · unfold fileWork EventPipes.update
    dsimp only
    rw [Function.update_of_ne away, steadyChunks steady, steadyWaits steady]
  · unfold fileWork EventPipes.update pipeWork
    dsimp only
    rw [Function.update_self, steadyChunks steady, steadyWaits steady, pipe, List.length_cons]
    dsimp only
    omega

theorem performDrops {p a} (counted : Counted p) (allowed : EventPipes.Allowed p a) (works : Works p a)
    (room : ∀ id, a = .readChunk id → (p.progress id).posted < chunksIn chunks p.registry id) :
    work chunks (EventPipes.perform layout p a) < work chunks p := by
  cases a with
  | registerFile | preInit | preInitFailed | askDoneMorton => cases works
  | dispatch id => exact dispatchDrops counted allowed
  | beginRead id =>
    have here : (p.progress id).stage = .queued := allowed
    obtain ⟨item, found⟩ := busyFound counted here (by decide)
    refine updateDrops found rfl rfl ?_
    rw [fileWork, here]
    simp only [stageWork, EventPipes.perform, EventPipes.enter, EventPipes.update, pipeWork]
    omega
  | readChunk id =>
    have here : (p.progress id).stage = .reading := allowed
    have more := room id rfl
    obtain ⟨item, found⟩ := busyFound counted here (by decide)
    refine updateDrops found rfl rfl ?_
    rw [fileWork, here]
    simp only [stageWork, EventPipes.perform, EventPipes.readChunk, EventPipes.update, pipeWork, List.length_append,
      List.length_singleton]
    omega
  | endRead id =>
    have here : (p.progress id).stage = .reading := allowed
    obtain ⟨item, found⟩ := busyFound counted here (by decide)
    refine updateDrops found rfl rfl ?_
    rw [fileWork, here]
    simp only [stageWork, EventPipes.perform, EventPipes.enter, EventPipes.update, pipeWork]
    omega
  | sortChunk id min max =>
    have some_ : 0 < (p.progress id).unsorted := allowed
    obtain ⟨item, found⟩ := @chunkFound p id counted (by omega)
    refine updateDrops found rfl rfl ?_
    rw [fileWork]
    simp only [EventPipes.perform, EventPipes.sortChunk, EventPipes.update, pipeWork, List.length_append,
      List.length_singleton]
    omega
  | closeFile id =>
    have here : (p.progress id).stage = .read := allowed.1
    obtain ⟨item, found⟩ := busyFound counted here (by decide)
    refine updateDrops found rfl rfl ?_
    rw [fileWork, here]
    simp only [stageWork, EventPipes.perform, EventPipes.closeFile, EventPipes.enter, EventPipes.update, pipeWork,
      List.length_append, List.length_singleton]
    omega
  | insertChunk id =>
    have some_ : 0 < (p.progress id).stored := allowed
    obtain ⟨item, found⟩ := @chunkFound p id counted (by omega)
    refine updateDrops found rfl rfl ?_
    rw [fileWork]
    simp only [EventPipes.perform, EventPipes.insertChunk, EventPipes.update, pipeWork, List.length_append,
      List.length_singleton]
    omega
  | takeSorted => exact sortedDrops counted works
  | takeSubAdded =>
    refine takeDrops (worksSteady works fun _ same => by cases same) ?_ ?_
    all_goals
      obtain ⟨id, rest, pipe⟩ := List.exists_cons_of_ne_nil (show p.subAdded ≠ [] from works)
      simp only [EventPipes.perform, EventPipes.takeSubAdded, pipe, pipeWork, List.length_cons]
    omega
  | takeReadingDone =>
    refine takeDrops (worksSteady works fun _ same => by cases same) ?_ ?_
    all_goals
      obtain ⟨id, rest, pipe⟩ := List.exists_cons_of_ne_nil (show p.readingDone ≠ [] from works)
      simp only [EventPipes.perform, EventPipes.takeReadingDone, pipe, pipeWork, List.length_cons]
    omega
  | takeTreeDone =>
    refine takeDrops (worksSteady works fun _ same => by cases same) ?_ ?_
    all_goals
      obtain ⟨id, rest, pipe⟩ := List.exists_cons_of_ne_nil (show p.treeDone ≠ [] from works)
      simp only [EventPipes.perform, EventPipes.takeTreeDone, pipe, pipeWork, List.length_cons]
    omega

/-! ## The files that wait -/

-- Once the waiting list is up to date, every file that may be dispatched is in it.
def Offered (r : Registry) : Prop := r.unsortedInputSourcesDirty = false → ∀ id item, r.items.find id = some item →
  item.readStarted = false → item.preInitSettled = true → id ∈ r.unsortedInputSources

theorem steadyOffered {r after : Registry} (offered : Offered r) (steady : Steady r.items after.items)
    (dirty : after.unsortedInputSourcesDirty = r.unsortedInputSourcesDirty)
    (unsorted : after.unsortedInputSources = r.unsortedInputSources) : Offered after := by
  intro clean k item found unstarted settled
  obtain ⟨old, there, _, started, same⟩ := steady.entry k item found
  rw [unsorted]
  exact offered (dirty ▸ clean) k old there (started ▸ unstarted) (same ▸ settled)

theorem rebuiltOffered {r : Registry} (offered : Offered r) {id item} (found : r.items.find id = some item)
    (unstarted : item.readStarted = false) (settled : item.preInitSettled = true) :
    id ∈ (rebuildUnsorted r).unsortedInputSources := by
  unfold rebuildUnsorted
  split
  · refine List.mem_map.mpr ⟨(id, item), List.mem_filter.mpr ⟨DenseMap.findMem.mp found, ?_⟩, rfl⟩
    rw [unstarted, settled]
    rfl
  · rename_i clean
    exact offered (Bool.eq_false_iff.mpr clean) id item found unstarted settled

theorem dispatchOffered {r : Registry} {id} (offered : Offered r) : Offered (nextInputToProcess r id) := by
  intro _ k item found unstarted settled
  obtain ⟨old, there, rfl⟩ := changedFind (dispatchChanged r id) found
  split at unstarted
  · cases unstarted
  · rename_i away
    rw [if_neg away] at settled
    exact (List.mem_erase_of_ne away).mpr (rebuiltOffered offered there unstarted settled)

theorem registerOffered {r : Registry} {name} (shape : ProcessorIdle.Shape r) (offered : Offered r) :
    Offered (registerFile layout r name).1 := by
  unfold registerFile
  split
  · exact offered
  · have absent : r.items.find r.nextInputId = none := by
      cases found : r.items.find r.nextInputId with
      | none => rfl
      | some item => exact absurd (shape.fresh _ item found) (Nat.lt_irrefl _)
    intro clean k item found unstarted settled
    dsimp only at found
    rw [DenseMap.findEmplace absent] at found
    split at found
    · cases found
      cases settled
    · exact offered clean k item found unstarted settled

theorem performOffered {p a} (counted : Counted p) (offered : Offered p.registry) :
    Offered (EventPipes.perform layout p a).registry := by
  by_cases works : Works p a ∧ ∀ id, a ≠ .dispatch id
  · have steady := @worksSteady layout p a works.1 works.2
    cases a with
    | registerFile | preInit | preInitFailed | askDoneMorton => cases works.1
    | dispatch id => exact absurd rfl (works.2 id)
    | beginRead | readChunk | endRead | sortChunk | closeFile | insertChunk => exact offered
    | takeSubAdded | takeSorted | takeTreeDone =>
      refine steadyOffered offered steady ?_ ?_
      all_goals
        simp only [EventPipes.perform, EventPipes.takeSubAdded, EventPipes.takeSorted, EventPipes.takeTreeDone]
        split <;> rfl
    | takeReadingDone =>
      refine steadyOffered offered steady ?_ ?_
      all_goals
        simp only [EventPipes.perform, EventPipes.takeReadingDone]
        split
        · rfl
      · exact (ProcessorIdle.finishFrame p.registry _).2.2.1
      · exact (ProcessorIdle.finishFrame p.registry _).2.2.2.1
  · cases a with
    | registerFile name => exact registerOffered counted.shape offered
    | preInit id order count size => exact fun clean => by cases clean
    | preInitFailed id =>
      intro clean
      have dirty := (ProcessorIdle.finishFrame { p.registry with
        items := modifyItem p.registry.items id fun item => { item with preInitSettled := true, readStarted := true }
        unsortedInputSourcesDirty := true } id).2.2.1
      have clash : true = false := dirty.symm.trans clean
      cases clash
    | dispatch id => exact dispatchOffered offered
    | askDoneMorton =>
      show Offered (getDoneMorton p.registry).1
      rw [ProcessorIdle.askFrame]
      exact offered
    | beginRead | readChunk | endRead | sortChunk | closeFile | insertChunk => exact absurd ⟨trivial, by simp⟩ works
    | takeSubAdded | takeSorted | takeReadingDone | takeTreeDone =>
      have empty := Decidable.not_not.mp fun more => works ⟨more, by simp⟩
      simp only [EventPipes.perform, EventPipes.takeSubAdded, EventPipes.takeSorted, EventPipes.takeReadingDone,
        EventPipes.takeTreeDone, empty]
      exact offered

variable (chunks) in
-- No more chunks are read than there are.
def Within (p : EventPipes.World) : Prop :=
  ∀ id item, p.registry.items.find id = some item → (p.progress id).posted ≤ chunks item.name

theorem performWithin {w a} (before : Placed w) (after : Placed (perform layout w a)) (within : Within chunks w.pipes)
    (allowed : Allowed chunks w a) : Within chunks (perform layout w a).pipes := by
  intro id item found
  have counted := after.counted
  rw [performPipes] at found counted ⊢
  have entries := @performEntries layout w.pipes (pipesAction a) before.counted
  rcases entries.entry id item found with ⟨old, there, follows⟩ | ⟨_, unstarted, _⟩
  · have room := within id old there
    rw [follows.name] at room
    by_cases read : pipesAction a = .readChunk id
    · cases a with
      | event a =>
        have same : a = .readChunk id := read
        subst same
        have fits : (w.pipes.progress id).posted < chunksOf chunks w id := allowed.2
        rw [chunksOf, valueFound there, follows.name] at fits
        have step : (EventPipes.perform layout w.pipes (.readChunk id)).progress id = _ := Function.update_self ..
        show ((EventPipes.perform layout w.pipes (.readChunk id)).progress id).posted ≤ _
        rw [step]
        exact fits
      | insertChunk k sub => cases read
      | failRead k => cases read
    · rw [performPosted read]
      exact room
  · have idle : ((EventPipes.perform layout w.pipes (pipesAction a)).progress id).stage = .idle := by
      by_contra busy
      obtain ⟨other, here, started⟩ := counted.started id busy
      cases Option.some.inj (here.symm.trans found)
      exact absurd (unstarted.symm.trans started) Bool.false_ne_true
    rw [counted.quiet id idle]
    exact Nat.zero_le _

/-! ## Some step is possible until the end -/

-- A file whose reader is closed and whose chunks have all gone through is done.
theorem closedDone {p : EventPipes.World} {id} (counted : Counted p) (listed : Listed p)
    (mem : id ∈ p.registry.sortedInputSources) (subAdded : p.subAdded = []) (sorted : p.sorted = [])
    (readingDone : p.readingDone = []) (treeDone : p.treeDone = [])
    (closed : (p.progress id).stage = .idle ∨ (p.progress id).stage = .closed)
    (through : (p.progress id).unsorted = 0 ∧ (p.progress id).stored = 0) : doneId p.registry.items id = true := by
  have busy := (listed.dispatched id).mpr mem
  rcases listed.closing id (closed.resolve_left busy) with waiting | ⟨item, found, finished⟩
  · rw [readingDone] at waiting
    cases waiting
  · have there : p.registry.items.find id = some item := found
    have subs := counted.subs id
    have trees := counted.trees id
    have flow := counted.flow id
    rw [valueFound there, subAdded, List.count_nil] at subs
    rw [valueFound there, treeDone, List.count_nil] at trees
    rw [through.1, through.2, sorted, List.map_nil, List.count_nil] at flow
    rw [doneId, there, Option.map_some, Option.getD_some, Item.done, finished, Bool.true_and, decide_eq_true_eq]
    omega

theorem wayFound {w : World} {id} (placed : Placed w) (stored : 0 < (w.pipes.progress id).stored) :
    ∃ sub, (id, sub) ∈ w.way := by
  have ways := placed.ways id
  have flow := placed.counted.flow id
  obtain ⟨⟨_, sub⟩, mem, rfl⟩ := List.mem_map.mp (List.count_pos_iff.mp (by omega : 0 < (w.way.map Prod.fst).count id))
  exact ⟨sub, mem⟩

theorem someOwn {w : World} (placed : Placed w) (within : Within chunks w.pipes) (offered : Offered w.pipes.registry)
    (settled : Settled w.pipes.registry) (busy : ¬Ended w) :
    ∃ a, (StepSound w a ∧ Own false w a) ∧ Allowed chunks w a := by
  by_contra stuck
  have none_ : ∀ a, StepSound w a → Own false w a → ¬Allowed chunks w a :=
    fun a sound own allowed => stuck ⟨a, ⟨sound, own⟩, allowed⟩
  have subAdded : w.pipes.subAdded = [] := by
    by_contra more
    exact none_ (.event .takeSubAdded) ⟨trivial, trivial⟩ more ⟨trivial, trivial⟩
  have sorted : w.pipes.sorted = [] := by
    by_contra more
    exact none_ (.event .takeSorted) ⟨trivial, trivial⟩ more ⟨trivial, trivial⟩
  have treeDone : w.pipes.treeDone = [] := by
    by_contra more
    exact none_ (.event .takeTreeDone) ⟨trivial, trivial⟩ more ⟨trivial, trivial⟩
  have readingDone : w.pipes.readingDone = [] := by
    by_contra more
    refine none_ (.event .takeReadingDone) ⟨fun id _ => ?_, trivial⟩ more ⟨trivial, trivial⟩
    rw [subAdded]
    exact List.not_mem_nil
  have unsorted : ∀ id, (w.pipes.progress id).unsorted = 0 := fun id => by
    by_contra more
    exact none_ (.event (.sortChunk id 0 0)) ⟨trivial, trivial⟩ trivial ⟨Nat.pos_of_ne_zero more, trivial⟩
  have stored : ∀ id, (w.pipes.progress id).stored = 0 := fun id => by
    by_contra more
    obtain ⟨sub, mem⟩ := wayFound placed (Nat.pos_of_ne_zero more)
    exact none_ (.insertChunk id sub) trivial trivial ⟨Nat.pos_of_ne_zero more, mem⟩
  have readers : ∀ id, (w.pipes.progress id).stage = .idle ∨ (w.pipes.progress id).stage = .closed := fun id => by
    cases stage : (w.pipes.progress id).stage with
    | idle => exact Or.inl rfl
    | closed => exact Or.inr rfl
    | queued => exact absurd ⟨stage, trivial⟩ (none_ (.event (.beginRead id)) ⟨trivial, trivial⟩ trivial)
    | read => exact absurd ⟨⟨stage, unsorted id⟩, trivial⟩ (none_ (.event (.closeFile id)) ⟨trivial, trivial⟩ trivial)
    | reading =>
      obtain ⟨item, found⟩ := busyFound placed.counted stage (by decide)
      have all : chunksOf chunks w id = chunks item.name := valueFound found
      rcases Nat.lt_or_ge (w.pipes.progress id).posted (chunksOf chunks w id) with more | enough
      · exact absurd ⟨stage, more⟩ (none_ (.event (.readChunk id)) ⟨trivial, trivial⟩ trivial)
      · have last := Nat.le_antisymm (all ▸ within id item found) enough
        exact absurd ⟨stage, last⟩ (none_ (.event (.endRead id)) ⟨trivial, trivial⟩ trivial)
  refine busy ⟨subAdded, sorted, readingDone, treeDone, fun e _ => readers e.1, fun e _ => ⟨unsorted e.1, stored e.1⟩,
    fun e mem => ?_⟩
  by_contra unstarted
  have found := DenseMap.findMem.mpr mem
  have waiting := rebuiltOffered offered found (Bool.eq_false_iff.mpr unstarted) (settled _ _ found)
  obtain ⟨first, here, least⟩ := Finset.exists_min_image (rebuildUnsorted w.pipes.registry).unsortedInputSources.toFinset
    (orderOf w.pipes.registry.items) ⟨e.1, List.mem_toFinset.mpr waiting⟩
  refine none_ (.event (.dispatch first)) ⟨trivial, fun f mem => Or.inl ?_⟩ trivial ⟨⟨List.mem_toFinset.mp here,
    fun other mem => least other (List.mem_toFinset.mpr mem)⟩, trivial⟩
  exact closedDone placed.counted placed.listed (List.mem_of_mem_drop mem) subAdded sorted readingDone treeDone (readers f)
    ⟨unsorted f, stored f⟩

-- What is proved of every step of a session, and of the steps that are its own.
theorem ownWorks {fails : Bool} {w a} (own : Own fails w a) : Works w.pipes (pipesAction a) := by
  cases a with
  | event a => exact own
  | insertChunk id sub => trivial
  | failRead id => trivial

theorem ownRoom {w a} (allowed : Allowed chunks w a) (id : Nat) (read : pipesAction a = .readChunk id) :
    (w.pipes.progress id).posted < chunksIn chunks w.pipes.registry id := by
  cases a with
  | event a =>
    have same : a = .readChunk id := read
    subst same
    exact allowed.2
  | insertChunk k sub => cases read
  | failRead k => cases read

end Dewfall.ResumedProgress
