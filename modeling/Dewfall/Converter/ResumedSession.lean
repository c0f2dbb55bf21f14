import Dewfall.Converter.ResumedProgress

/-! The second session: which files it finds done, which it reads again, and what it ends with. A
chunk that the first session left in the tree of an unfinished file is not taken back. -/
namespace Dewfall.ResumedSession
open General General.Transition InputRegistry InputSnapshot InputResume
open DoneBoundary (Sequence changedKeep)
open EventPipes (Counted EverInserted valueOf valueFound)
open ResumedProgress (Settled Within Offered working work)

variable {layout : Layout Nat Item} {chunks : Name → Nat}

/-! ## The order of unfinished files -/

def Ordered (r : Registry) : Prop :=
  Sequence (doneId r.items) (orderOf r.items) (r.sortedInputSources.drop 1)

-- The boundary's own invariant, with what has been posted so far as the number of chunks.
def counting (p : EventPipes.World) : DoneBoundary.World := ⟨p.registry, fun id => (p.progress id).posted⟩

theorem retiredSubs {p id item} (inv : EventPipes.Invariant p) (found : p.registry.items.find id = some item)
    (finished : item.readFinished = true) : item.subCount = (p.progress id).posted := by
  obtain ⟨_, pipe⟩ := inv.retired id item found finished
  have subs := inv.counted.subs id
  rw [valueFound found, List.count_eq_zero.mpr pipe] at subs
  exact subs

theorem countingInvariant {p} (inv : EventPipes.Invariant p) (listed : Listed p) (ordered : Ordered p.registry) :
    DoneBoundary.Invariant (counting p) := by
  have shape := inv.counted.shape
  refine ⟨shape.fresh, shape.started, listed.distinct, listed.outside, fun id item => retiredSubs inv, shape.read,
    fun id away => ?_, shape.waiting, inv.cursor, inv.finished, ordered⟩
  refine inv.counted.quiet id (Decidable.byContradiction fun busy => away ?_)
  exact (listed.dispatched id).mp busy

theorem takeSubOrdered {p} (inv : EventPipes.Invariant p) (listed : Listed p) (ordered : Ordered p.registry) :
    Ordered (EventPipes.takeSubAdded p).registry := by
  unfold EventPipes.takeSubAdded
  split
  · exact ordered
  · rename_i id rest pipe
    have subs := inv.counted.subs id
    rw [pipe, List.count_cons_self] at subs
    obtain ⟨item, found, _⟩ := EventPipes.postedFound id inv.counted (by omega)
    rw [valueFound found] at subs
    have room : item.subCount < (p.progress id).posted := by omega
    exact (DoneBoundary.subAddedInvariant (countingInvariant inv listed ordered) ⟨item, found, room⟩).sequence

theorem takeDoneOrdered {p} (inv : EventPipes.Invariant p) (listed : Listed p) (ordered : Ordered p.registry)
    (sound : EventPipes.StepSound p .takeReadingDone) : Ordered (EventPipes.takeReadingDone p).registry := by
  unfold EventPipes.takeReadingDone
  split
  · exact ordered
  · rename_i id rest pipe
    have closed := inv.counted.closing id (pipe ▸ List.mem_cons_self)
    have busy : (p.progress id).stage ≠ .idle := by rw [closed]; decide
    obtain ⟨item, found, _⟩ := inv.counted.started id busy
    have subs := inv.counted.subs id
    rw [valueFound found, List.count_eq_zero.mpr (sound id (by rw [pipe]; rfl))] at subs
    exact (DoneBoundary.readingDoneInvariant (countingInvariant inv listed ordered)
      ((listed.dispatched id).mp busy) ⟨item, found, subs⟩).sequence

theorem performOrdered {p a} (inv : EventPipes.Invariant p) (listed : Listed p) (ordered : Ordered p.registry)
    (sound : EventPipes.StepSound p a) (inOrder : Orderly p.registry a) (allowed : EventPipes.Allowed p a) :
    Ordered (EventPipes.perform layout p a).registry := by
  have before := countingInvariant inv listed ordered
  cases a with
  | registerFile name => exact (DoneBoundary.registerInvariant layout before).sequence
  | preInit id order count size =>
    obtain ⟨item, found⟩ := Option.isSome_iff_exists.mp allowed
    exact (DoneBoundary.preInitInvariant before ⟨item, found, trivial⟩ inOrder).sequence
  | preInitFailed id =>
    obtain ⟨item, found⟩ := Option.isSome_iff_exists.mp allowed
    have subs := inv.counted.subs id
    rw [valueFound found, List.count_eq_zero.mpr sound.2] at subs
    exact (DoneBoundary.fileFailedInvariant before ⟨item, found, subs⟩).sequence
  | dispatch id => exact (@DoneBoundary.dispatchInvariant _ id 0 before allowed inOrder).sequence
  | beginRead | readChunk | endRead | sortChunk | closeFile | insertChunk => exact ordered
  | takeSubAdded => exact takeSubOrdered inv listed ordered
  | takeSorted =>
    unfold EventPipes.perform EventPipes.takeSorted
    dsimp only
    split
    · exact ordered
    · exact (DoneBoundary.sortedInvariant before).sequence
  | takeReadingDone => exact takeDoneOrdered inv listed ordered sound
  | takeTreeDone =>
    unfold EventPipes.perform EventPipes.takeTreeDone
    dsimp only
    split
    · exact ordered
    · exact (DoneBoundary.treeDoneInvariant before).sequence
  | askDoneMorton => exact (DoneBoundary.askInvariant before).sequence

theorem orderedBoundary {p boundary} (inv : EventPipes.Invariant p) (listed : Listed p) (ordered : Ordered p.registry)
    (yields : (getDoneMorton p.registry).2 = some boundary) (minCode : Nat → Nat)
    (least : ∀ id item, p.registry.items.find id = some item → item.inputOrder ≤ minCode id) {id item}
    (found : p.registry.items.find id = some item)
    (unfinished : ¬(item.readFinished = true ∧ EverInserted layout p id)) : boundary ≤ minCode id := by
  have sound := DoneBoundary.invariantSound (countingInvariant inv listed ordered)
  refine sound boundary yields minCode least id item found fun complete => unfinished ⟨complete.1, ?_⟩
  have enough : (p.progress id).posted ≤ item.insertedIntoTree := complete.2
  refine EventPipes.doneInserted inv found ?_
  simp only [Item.done, Bool.and_eq_true, decide_eq_true_eq]
  exact ⟨complete.1, Nat.le_trans (Nat.le_of_eq (retiredSubs inv found complete.1)) enough⟩

/-! ## Files that were read as a whole -/

def Through (p : EventPipes.World) (id : Nat) : Prop :=
  (p.progress id).stage = .read ∨ (p.progress id).stage = .closed

theorem updateThrough {p after : EventPipes.World} {id k q} (progress : after.progress = Function.update p.progress id q)
    (own : k = id → q.stage = .read ∨ q.stage = .closed → Through p k) (through : Through after k) : Through p k := by
  rw [Through, progress] at through
  by_cases same : k = id
  · rw [same, Function.update_self] at through
    exact own same through
  · rw [Function.update_of_ne same] at through
    exact through

theorem performThrough {p a k} (allowed : EventPipes.Allowed p a)
    (through : Through (EventPipes.perform layout p a) k) : Through p k ∨ a = .endRead k := by
  cases a with
  | registerFile | preInit | preInitFailed | askDoneMorton => exact Or.inl through
  | dispatch id => exact Or.inl (updateThrough rfl (fun _ ends => by simp at ends) through)
  | beginRead id => exact Or.inl (updateThrough rfl (fun _ ends => by simp at ends) through)
  | readChunk id => exact Or.inl (updateThrough rfl (fun same ends => by rw [Through, same]; exact ends) through)
  | endRead id =>
    by_cases same : k = id
    · exact Or.inr (by rw [same])
    · exact Or.inl (updateThrough rfl (fun here => absurd here same) through)
  | sortChunk id _ _ => exact Or.inl (updateThrough rfl (fun same ends => by rw [Through, same]; exact ends) through)
  | closeFile id => exact Or.inl (updateThrough rfl (fun same _ => Or.inl (same ▸ allowed.1)) through)
  | insertChunk id => exact Or.inl (updateThrough rfl (fun same ends => by rw [Through, same]; exact ends) through)
  | takeSubAdded =>
    unfold EventPipes.perform EventPipes.takeSubAdded at through
    dsimp only at through
    split at through
    · exact Or.inl through
    · exact Or.inl through
  | takeSorted =>
    unfold EventPipes.perform EventPipes.takeSorted at through
    dsimp only at through
    split at through
    · exact Or.inl through
    · exact Or.inl (updateThrough rfl (fun same ends => by rw [Through, same]; exact ends) through)
  | takeReadingDone =>
    unfold EventPipes.perform EventPipes.takeReadingDone at through
    dsimp only at through
    split at through
    · exact Or.inl through
    · exact Or.inl through
  | takeTreeDone =>
    unfold EventPipes.perform EventPipes.takeTreeDone at through
    dsimp only at through
    split at through
    · exact Or.inl through
    · exact Or.inl through

structure Continued (chunks : Name → Nat) (w : World) : Prop where
  placed : Placed w
  pipes : EventPipes.Invariant w.pipes
  ordered : Ordered w.pipes.registry
  whole : ∀ id item, w.pipes.registry.items.find id = some item → id ∉ w.failed →
    Through w.pipes id ∨ item.readFinished = true → (w.pipes.progress id).posted = chunks item.name

theorem retiredThrough {p a k} (counted : Counted p) (retired : retiredBy p a k) :
    Through p k ∨ a = .preInitFailed k := by
  cases a with
  | preInitFailed id =>
    have same : k = id := retired
    exact Or.inr (by rw [same])
  | takeReadingDone =>
    have mem : k ∈ p.readingDone := List.mem_of_mem_head? retired
    exact Or.inl (Or.inr (counted.closing k mem))
  | _ => exact False.elim retired

-- A step that does not end the file's reader or fail the file finds it read already.
theorem continuedWhole {w a} (before : Continued chunks w) (allowed : Allowed chunks w a)
    (placed : Placed (perform layout w a)) (id : Nat) (item : Item)
    (found : (perform layout w a).pipes.registry.items.find id = some item) (kept : id ∉ (perform layout w a).failed)
    (through : Through (perform layout w a).pipes id ∨ item.readFinished = true) :
    ((perform layout w a).pipes.progress id).posted = chunks item.name := by
  have reached := allowedPipes allowed
  have counted := placed.counted
  have listed := placed.listed
  have earlier : id ∉ w.failed := by
    intro mem
    refine kept ?_
    cases a with
    | event a =>
      cases a with
      | preInitFailed k => exact List.mem_cons_of_mem _ mem
      | _ => exact mem
    | insertChunk k sub => exact mem
    | failRead k => exact List.mem_cons_of_mem _ mem
  rw [performPipes] at found through counted listed ⊢
  have entries := @performEntries layout w.pipes (pipesAction a) before.pipes.counted
  rcases entries.entry id item found with ⟨old, there, follows⟩ | ⟨_, idle, unread⟩
  · have back : (Through w.pipes id ∨ old.readFinished = true) ∨
        pipesAction a = .endRead id ∨ pipesAction a = .preInitFailed id := by
      rcases through with through | finished
      · exact (performThrough reached through).imp Or.inl Or.inl
      · rcases follows.retires finished with finished | retired
        · exact Or.inl (Or.inr finished)
        · exact (retiredThrough before.pipes.counted retired).imp Or.inl Or.inr
    rcases back with back | ends | fails
    · have still : pipesAction a ≠ .readChunk id := by
        intro same
        rw [same] at reached
        rcases back with (read | closed) | finished
        · exact absurd (read.symm.trans reached) (by decide)
        · exact absurd (closed.symm.trans reached) (by decide)
        · exact (before.pipes.retired id old there finished).1 (Or.inr reached)
      rw [performPosted still, before.whole id old there earlier back, follows.name]
    · rw [performPosted (by rw [ends]; exact fun h => by cases h)]
      cases a with
      | event a =>
        have same : a = .endRead id := ends
        subst same
        have fits : (w.pipes.progress id).posted = chunksOf chunks w id := allowed.2
        rw [fits, chunksOf, valueFound there, follows.name]
      | insertChunk k sub => cases ends
      | failRead k =>
        cases ends
        exact absurd List.mem_cons_self kept
    · cases a with
      | event a =>
        have same : a = .preInitFailed id := fails
        subst same
        exact absurd List.mem_cons_self kept
      | insertChunk k sub => cases fails
      | failRead k => cases fails
  · have busy : ¬Through (EventPipes.perform layout w.pipes (pipesAction a)) id := by
      intro read
      obtain ⟨other, here, started⟩ := counted.started id (by rcases read with read | read <;> rw [read] <;> decide)
      cases Option.some.inj (here.symm.trans found)
      exact absurd (idle.symm.trans started) (by decide)
    rcases through with read | finished
    · exact absurd read busy
    · exact absurd (unread.symm.trans finished) (by decide)

theorem performContinued {w a} (before : Continued chunks w) (sound : StepSound w a)
    (allowed : Allowed chunks w a) : Continued chunks (perform layout w a) := by
  have reached := allowedPipes allowed
  have placed := @performPlaced layout chunks w a before.placed allowed
  have step : EventPipes.StepSound w.pipes (pipesAction a) ∧ Orderly w.pipes.registry (pipesAction a) := by
    cases a with
    | event a => exact sound
    | insertChunk id sub => exact ⟨trivial, trivial⟩
    | failRead id => exact ⟨trivial, trivial⟩
  refine ⟨placed, ?_, ?_, continuedWhole before allowed placed⟩
  · rw [performPipes]
    exact EventPipes.performInvariant before.pipes step.1 reached
  · rw [performPipes]
    exact performOrdered before.pipes before.placed.listed before.ordered step.1 step.2 reached

/-! ## The state a second session starts in -/

theorem restoredItem {w : World} {r : Registry} (placed : Placed w) (clean : Clean chunks w)
    (restored : Restored w.pipes.registry r) {id item} (found : r.items.find id = some item) :
    (Complete chunks w id item ∧ item.readStarted = true ∧ (id ∉ r.sortedInputSources → chunks item.name = 0)) ∨
      (Untouched w id item ∧ item.readStarted = false ∧ id ∉ r.sortedInputSources) := by
  rw [restored.found id] at found
  obtain ⟨old, there, rfl⟩ := Option.map_eq_some_iff.mp found
  have kept_ : Item.whole (kept old) = Item.whole old := rfl
  have listed : id ∈ r.sortedInputSources ↔ id ∈ w.pipes.registry.sortedInputSources ∧ Item.whole old = true := by
    rw [restored.still, List.mem_filter, wholeId, there]
    rfl
  rcases clean id old there with complete | untouched
  · obtain ⟨finished, subs, trees, each⟩ := complete
    have whole : Item.whole old = true := by
      simp only [Item.whole, finished, subs, trees, Bool.true_and, decide_true]
    have settled : settledItem w.pipes.registry.sortedInputSources id (kept old) = kept old := by
      rw [settledItem, if_neg]
      rw [kept_, whole]
      simp
    rw [settled]
    refine Or.inl ⟨⟨finished, subs, trees, each⟩, placed.counted.shape.read id old there finished, fun away => ?_⟩
    have outside : id ∉ w.pipes.registry.sortedInputSources := fun mem => away (listed.mpr ⟨mem, whole⟩)
    have idle : (w.pipes.progress id).stage = .idle :=
      Decidable.byContradiction fun busy => outside ((placed.listed.dispatched id).mp busy)
    have none_ := placed.counted.subs id
    rw [valueFound there, placed.counted.quiet id idle] at none_
    show chunks old.name = 0
    omega
  · have partly : Item.whole old = false := by
      rw [Item.whole, untouched.1, Bool.false_and]
    refine Or.inr ⟨?_, ?_, fun mem => ?_⟩
    · obtain ⟨unread, subs, trees, each⟩ := untouched
      unfold settledItem
      split
      · exact ⟨unread, subs, trees, each⟩
      · exact ⟨unread, subs, trees, each⟩
    · unfold settledItem
      split
      · rfl
      · rename_i away
        rw [kept_, partly, and_iff_left rfl] at away
        show old.readStarted = false
        rw [← Bool.not_eq_true]
        intro started
        exact absurd (untouched.1.symm.trans (placed.listed.outside id old there started away)) (by decide)
    · exact absurd (partly.symm.trans (listed.mp mem).2) (by decide)

theorem restoredSorted {w : World} {r : Registry} (placed : Placed w) (clean : Clean chunks w)
    (restored : Restored w.pipes.registry r) {id} (mem : id ∈ r.sortedInputSources) :
    ∃ item, r.items.find id = some item ∧ Complete chunks w id item ∧ item.readStarted = true := by
  have here := mem
  rw [restored.still, List.mem_filter] at mem
  obtain ⟨old, there, _⟩ := placed.counted.shape.started id mem.1
  have found := restored.found id
  have at_ : w.pipes.registry.items.find id = some old := there
  rw [at_, Option.map_some] at found
  refine ⟨_, found, ?_⟩
  rcases restoredItem placed clean restored found with ⟨complete, started, _⟩ | ⟨_, _, away⟩
  · exact ⟨complete, started⟩
  · exact absurd here away

theorem restoredShape {w : World} {r : Registry} (placed : Placed w) (clean : Clean chunks w)
    (restored : Restored w.pipes.registry r) : ProcessorIdle.Shape r := by
  refine ⟨restored.fresh, fun id mem => ?_, fun id item found finished => ?_, fun settled => ?_,
    fun id item found => ?_, restored.finished⟩
  · obtain ⟨item, found, _, started⟩ := restoredSorted placed clean restored mem
    exact ⟨item, found, started⟩
  · rcases restoredItem placed clean restored found with ⟨_, started, _⟩ | ⟨untouched, _⟩
    · exact started
    · exact absurd (untouched.1.symm.trans finished) (by decide)
  · exact absurd (settled.symm.trans restored.dirty) (by decide)
  · rw [restored.found id] at found
    obtain ⟨old, there, rfl⟩ := Option.map_eq_some_iff.mp found
    have code := placed.counted.shape.codes id old there
    unfold settledItem
    split
    · exact code
    · exact code

-- A file that is not in the restored dispatch list has counted nothing.
theorem restoredValues {w : World} {r : Registry} (placed : Placed w) (clean : Clean chunks w)
    (restored : Restored w.pipes.registry r) (id : Nat) (away : id ∉ r.sortedInputSources) :
    valueOf Item.subCount r.items id = 0 ∧ valueOf Item.insertedIntoTree r.items id = 0 ∧
      ∀ sub, w.tree.count (id, sub) = 0 := by
  cases found : r.items.find id with
  | none =>
    have absent : w.pipes.registry.items.find id = none := by
      have same := restored.found id
      rw [found] at same
      exact Option.map_eq_none_iff.mp same.symm
    have idle : (w.pipes.progress id).stage = .idle := by
      refine Decidable.byContradiction fun busy => ?_
      obtain ⟨item, there, _⟩ := placed.counted.started id busy
      exact absurd (absent.symm.trans there) (by simp)
    unfold valueOf
    rw [found]
    refine ⟨rfl, rfl, fun sub => ?_⟩
    have each := placed.each id sub
    rw [placed.counted.quiet id idle, if_neg (Nat.not_lt_zero sub)] at each
    omega
  | some item =>
    rw [valueFound found, valueFound found]
    rcases restoredItem placed clean restored found with ⟨⟨_, subs, trees, each⟩, _, none_⟩ | ⟨⟨_, subs, trees, each⟩, _⟩
    · rw [none_ away] at subs trees each
      exact ⟨subs, trees, fun sub => (each sub).trans (if_neg (Nat.not_lt_zero sub))⟩
    · refine ⟨subs, trees, fun sub => List.count_eq_zero.mpr fun mem => ?_⟩
      exact each _ mem rfl

def resumed (r : Registry) (w : World) : World := ⟨⟨r, progressOf r, [], [], [], []⟩, [], w.tree, []⟩

theorem progressListed {r : Registry} {id} (mem : id ∈ r.sortedInputSources) :
    progressOf r id =
      ⟨.closed, valueOf Item.subCount r.items id, 0, 0, valueOf Item.subCount r.items id⟩ := if_pos mem

theorem progressIdle {r : Registry} {id} (away : id ∉ r.sortedInputSources) : progressOf r id = ⟨.idle, 0, 0, 0, 0⟩ :=
  if_neg away

theorem resumedCounted {w : World} {r : Registry} (placed : Placed w) (clean : Clean chunks w)
    (restored : Restored w.pipes.registry r) : Counted (resumed r w).pipes := by
  have shape := restoredShape placed clean restored
  unfold resumed
  refine ⟨shape, restored.added, restored.inserted, fun id => ?_, fun id => ?_, fun id => ?_, fun id busy => ?_,
    fun id idle => ?_, fun id mem => by cases mem⟩
  all_goals
    dsimp only at *
    by_cases mem : id ∈ r.sortedInputSources
  · rw [progressListed mem]
    rfl
  · rw [progressIdle mem, (restoredValues placed clean restored id mem).1]
    rfl
  · obtain ⟨item, found, ⟨_, subs, trees, _⟩, _⟩ := restoredSorted placed clean restored mem
    rw [progressListed mem, valueFound found, valueFound found, subs, trees]
    rfl
  · rw [progressIdle mem, (restoredValues placed clean restored id mem).2.1]
    rfl
  · rw [progressListed mem]
    simp
  · rw [progressIdle mem]
    simp
  · exact shape.started id mem
  · rw [progressIdle mem] at busy
    exact absurd rfl busy
  · rw [progressListed mem] at idle
    cases idle
  · rw [progressIdle mem]

theorem resumedListed {w : World} {r : Registry} (placed : Placed w) (clean : Clean chunks w)
    (restored : Restored w.pipes.registry r) : Listed (resumed r w).pipes := by
  unfold resumed
  refine ⟨?_, fun id => ?_, fun id item found started away => ?_, fun id closed => ?_⟩
  all_goals dsimp only at *
  · rw [restored.still]
    exact placed.listed.distinct.filter _
  · by_cases mem : id ∈ r.sortedInputSources
    · simp [progressListed mem, mem]
    · simp [progressIdle mem, mem]
  · rcases restoredItem placed clean restored found with ⟨complete, _⟩ | ⟨_, idle, _⟩
    · exact complete.1
    · exact absurd (idle.symm.trans started) (by decide)
  · have mem : id ∈ r.sortedInputSources := by
      refine Decidable.byContradiction fun away => ?_
      rw [progressIdle away] at closed
      cases closed
    obtain ⟨item, found, complete, _⟩ := restoredSorted placed clean restored mem
    exact Or.inr ⟨item, found, complete.1⟩

theorem resumedPlaced {w : World} {r : Registry} (placed : Placed w) (clean : Clean chunks w)
    (restored : Restored w.pipes.registry r) : Placed (resumed r w) := by
  refine ⟨resumedCounted placed clean restored, resumedListed placed clean restored, fun id => ?_, fun id sub => ?_⟩
  all_goals
    unfold resumed
    dsimp only
    by_cases mem : id ∈ r.sortedInputSources
  · rw [progressListed mem]
    exact Nat.zero_add _
  · rw [progressIdle mem]
    rfl
  · obtain ⟨item, found, ⟨_, subs, _, each⟩, _⟩ := restoredSorted placed clean restored mem
    have posted : (progressOf r id).posted = chunks item.name := by rw [progressListed mem, valueFound found, subs]
    exact (Nat.zero_add _).trans ((each sub).trans (if_congr (by rw [posted]) rfl rfl))
  · have posted : (progressOf r id).posted = 0 := by rw [progressIdle mem]
    have away : ¬sub < (progressOf r id).posted := by
      rw [posted]
      exact Nat.not_lt_zero sub
    exact (Nat.zero_add _).trans (((restoredValues placed clean restored id mem).2.2 sub).trans (if_neg away).symm)

theorem resumedPipes {w : World} {r : Registry} (placed : Placed w) (clean : Clean chunks w)
    (restored : Restored w.pipes.registry r) : EventPipes.Invariant (resumed r w).pipes := by
  refine ⟨resumedCounted placed clean restored, fun id item found finished => ⟨?_, by simp [resumed]⟩,
    restored.cursor, fun id mem => ?_⟩
  · unfold resumed EventPipes.Pending
    dsimp only
    by_cases mem : id ∈ r.sortedInputSources
    · simp [progressListed mem]
    · simp [progressIdle mem]
  · obtain ⟨item, found, ⟨finished, subs, trees, _⟩, _⟩ :=
      restoredSorted placed clean restored (List.mem_of_mem_take mem)
    unfold resumed
    dsimp only
    rw [doneId, found]
    simp only [Option.map_some, Option.getD_some, Item.done, finished, subs, trees, Nat.le_refl, decide_true,
      Bool.and_self]

theorem resumedContinued {w : World} {r : Registry} (placed : Placed w) (clean : Clean chunks w)
    (restored : Restored w.pipes.registry r) : Continued chunks (resumed r w) := by
  refine ⟨resumedPlaced placed clean restored, resumedPipes placed clean restored, ?_,
    fun id item found _ through => ?_⟩
  · refine List.pairwise_of_forall_mem_list fun f mem g _ => Or.inl ?_
    obtain ⟨item, found, ⟨finished, subs, trees, _⟩, _⟩ :=
      restoredSorted placed clean restored (List.mem_of_mem_drop mem)
    unfold resumed
    dsimp only
    rw [doneId, found]
    simp only [Option.map_some, Option.getD_some, Item.done, finished, subs, trees, Nat.le_refl, decide_true,
      Bool.and_self]
  · unfold resumed at found through ⊢
    dsimp only at found through ⊢
    by_cases mem : id ∈ r.sortedInputSources
    · obtain ⟨other, there, ⟨_, subs, _, _⟩, _⟩ := restoredSorted placed clean restored mem
      cases Option.some.inj (there.symm.trans found)
      rw [progressListed mem, valueFound found]
      exact subs
    · unfold Through at through
      dsimp only at through
      rw [progressIdle mem] at through
      have finished : item.readFinished = true := by
        rcases through with (read | closed) | finished
        · cases read
        · cases closed
        · exact finished
      rcases restoredItem placed clean restored found with ⟨_, _, none_⟩ | ⟨untouched, _⟩
      · rw [progressIdle mem, none_ mem]
      · exact absurd (untouched.1.symm.trans finished) (by decide)

/-! ## The end of the second session -/

theorem endedFinished {w} (continued : Continued chunks w) (ended : Ended w) {id item}
    (found : w.pipes.registry.items.find id = some item) : item.readFinished = true := by
  have listed := continued.placed.listed
  have mem := DenseMap.findMem.mp found
  rcases ended.readers _ mem with idle | closed
  · refine listed.outside id item found (ended.dispatched _ mem) fun mem => ?_
    exact (listed.dispatched id).mpr mem idle
  · rcases listed.closing id closed with mem | ⟨other, there, finished⟩
    · rw [ended.readingDone] at mem
      cases mem
    · cases Option.some.inj (there.symm.trans found)
      exact finished

theorem endedPosted {w} (counted : Counted w.pipes) (ended : Ended w) {id item}
    (found : w.pipes.registry.items.find id = some item) :
    (w.pipes.progress id).posted = (w.pipes.progress id).inserted := by
  have flow := counted.flow id
  obtain ⟨unsorted, stored⟩ := ended.chunks _ (DenseMap.findMem.mp found)
  dsimp only at unsorted stored
  rw [unsorted, stored, ended.sorted, List.map_nil, List.count_nil] at flow
  omega

theorem endedInserted {w} (continued : Continued chunks w) (ended : Ended w) :
    allInsertedIntoTree w.pipes.registry = true := by
  have counted := continued.placed.counted
  have whole : ∀ id item, w.pipes.registry.items.find id = some item → item.subCount = item.insertedIntoTree := by
    intro id item found
    have subs := counted.subs id
    have trees := counted.trees id
    have posted := endedPosted counted ended found
    rw [valueFound found, ended.subAdded, List.count_nil] at subs
    rw [valueFound found, ended.treeDone, List.count_nil] at trees
    omega
  have finished : w.pipes.registry.items.total (fun item => item.readFinished.toNat) =
      w.pipes.registry.items.total fun _ => 1 := by
    refine Nat.le_antisymm ?_ ?_
    · exact DenseMap.totalLe fun _ item _ => Bool.toNat_le item.readFinished
    · refine DenseMap.totalLe fun id item found => ?_
      rw [endedFinished continued ended found]
      exact Nat.le_refl _
  have ones : w.pipes.registry.items.total (fun _ => 1) = w.pipes.registry.items.entries.length := by
    simp [DenseMap.total]
  simp only [allInsertedIntoTree, Bool.and_eq_true, decide_eq_true_eq]
  refine ⟨?_, ?_⟩
  · rw [counted.shape.counted, finished, ones]
  · rw [counted.added, counted.inserted]
    exact Nat.le_antisymm (DenseMap.totalLe fun id item found => Nat.le_of_eq (whole id item found))
      (DenseMap.totalLe fun id item found => Nat.le_of_eq (whole id item found).symm)

theorem endedOnce {w} (continued : Continued chunks w) (ended : Ended w) {id item}
    (found : w.pipes.registry.items.find id = some item) (kept : id ∉ w.failed) (sub : Nat) :
    w.tree.count (id, sub) = if sub < chunks item.name then 1 else 0 := by
  have finished := endedFinished continued ended found
  have posted := continued.whole id item found kept (Or.inr finished)
  have inserted := endedPosted continued.placed.counted ended found
  have ways := continued.placed.ways id
  have each := continued.placed.each id sub
  have none_ : w.way.count (id, sub) = 0 := by
    refine List.count_eq_zero.mpr fun mem => ?_
    have here : 0 < (w.way.map Prod.fst).count id := List.count_pos_iff.mpr (List.mem_map_of_mem mem)
    omega
  rw [none_, Nat.zero_add, posted] at each
  exact each

theorem continuedSound {w} (continued : Continued chunks w) : Sound layout chunks w := by
  refine ⟨fun boundary yields minCode least id item found unfinished => ?_, endedInserted continued,
    fun ended id item found kept => endedOnce continued ended found kept⟩
  exact orderedBoundary continued.pipes continued.placed.listed continued.ordered yields minCode least found unfinished

structure Moving (chunks : Name → Nat) (w : World) : Prop where
  continued : Continued chunks w
  within : Within chunks w.pipes
  offered : Offered w.pipes.registry

theorem performMoving {w a} (before : Moving chunks w) (sound : StepSound w a) (allowed : Allowed chunks w a) :
    Moving chunks (perform layout w a) := by
  have continued := @performContinued layout chunks w a before.continued sound allowed
  refine ⟨continued, ResumedProgress.performWithin before.continued.placed continued.placed before.within allowed, ?_⟩
  rw [performPipes]
  exact ResumedProgress.performOffered before.continued.placed.counted before.offered

theorem resumedMoving {w : World} {r : Registry} (placed : Placed w) (clean : Clean chunks w)
    (restored : Restored w.pipes.registry r) : Moving chunks (resumed r w) := by
  refine ⟨resumedContinued placed clean restored, fun id item found => ?_, fun settled => ?_⟩
  · unfold resumed at found ⊢
    dsimp only at found ⊢
    by_cases mem : id ∈ r.sortedInputSources
    · obtain ⟨other, there, ⟨_, subs, _, _⟩, _⟩ := restoredSorted placed clean restored mem
      cases Option.some.inj (there.symm.trans found)
      rw [progressListed mem, valueFound found]
      exact Nat.le_of_eq subs
    · rw [progressIdle mem]
      exact Nat.zero_le _
  · exact absurd (settled.symm.trans restored.dirty) (by decide)

theorem endsInevitable {w} (moving : Moving chunks w) (settled : Settled w.pipes.registry) (fails : Bool) :
    Inevitable (working layout chunks fails) Ended w := by
  refine @inevitable _ _ _ (fun w => Moving chunks w ∧ Settled w.pipes.registry) _ (fun w => work chunks w.pipes) ?_ ?_ ?_
    w ⟨moving, settled⟩
  · rintro s a t ⟨moving, settled⟩ ⟨⟨sound, own⟩, allowed, rfl⟩
    refine ⟨performMoving moving sound allowed, ?_⟩
    rw [performPipes]
    exact ResumedProgress.worksSettled settled (ResumedProgress.ownWorks own)
  · rintro s a t ⟨moving, _⟩ ⟨⟨_, own⟩, allowed, rfl⟩
    rw [performPipes]
    exact ResumedProgress.performDrops moving.continued.placed.counted (allowedPipes allowed)
      (ResumedProgress.ownWorks own) (ResumedProgress.ownRoom allowed)
  · rintro s ⟨moving, settled⟩ busy
    obtain ⟨a, ⟨sound, own⟩, allowed⟩ :=
      ResumedProgress.someOwn moving.continued.placed moving.within moving.offered settled busy
    have anyway : ResumedProgress.Own fails s a := by
      cases a with
      | event a => exact own
      | insertChunk id sub => trivial
      | failRead id => cases own
    exact ⟨a, _, ⟨sound, anyway⟩, allowed, rfl⟩

theorem resumeSound {w} (reach : Reachable (system layout chunks) w) (clean : Clean chunks w) (next : Nat) :
    ∃ first, resume layout next w = some first ∧
      ∀ labels after, Run ((system layout chunks).under StepSound) first labels after → Sound layout chunks after ∧
        (Settled after.pipes.registry → ∀ fails, Inevitable (working layout chunks fails) Ended after) := by
  have placed := reachableInvariant runPlaced reach
  obtain ⟨r, done, restored⟩ := @deserialized layout w.pipes.registry next fun id mem => by
    obtain ⟨item, found, _⟩ := placed.counted.shape.started id mem
    exact ⟨item, found⟩
  refine ⟨resumed r w, by rw [resume, done]; rfl, fun labels after run => ?_⟩
  have moving : Moving chunks after := by
    refine runInvariant (fun before a after moving step => ?_) run (resumedMoving placed clean restored)
    obtain ⟨sound, allowed, rfl⟩ := step
    exact performMoving moving sound allowed
  exact ⟨continuedSound moving.continued, endsInevitable moving⟩

/-! One file was read, inserted and counted as a whole, another was dispatched; the second is read
after the restart. -/

def chunksOfName (name : Name) : Nat := if name = [97] then 2 else 1

def wholeActions : List Action :=
  [.event (.registerFile [97]), .event (.registerFile [98]), .event (.preInit 0 (some 5) 10 4),
    .event (.preInit 1 (some 20) 10 4), .event (.dispatch 0), .event (.beginRead 0), .event (.readChunk 0),
    .event (.readChunk 0), .event (.endRead 0), .event .takeSubAdded, .event .takeSubAdded,
    .event (.sortChunk 0 6 9), .event (.sortChunk 0 7 12), .event .takeSorted, .event .takeSorted,
    .insertChunk 0 0, .insertChunk 0 1, .event .takeTreeDone, .event .takeTreeDone, .event (.closeFile 0),
    .event .takeReadingDone, .event (.dispatch 1)]

def againActions (id : Nat) : List Action :=
  [.event (.registerFile [98]), .event (.dispatch id), .event (.beginRead id), .event (.readChunk id),
    .event (.endRead id), .event .takeSubAdded, .event (.sortChunk id 21 25), .event .takeSorted,
    .insertChunk id 0, .event .takeTreeDone, .event (.closeFile id), .event .takeReadingDone]

def stopped (actions : List Action) : World := actions.foldl (perform (appendLayout Nat Item)) start

def restarted (actions : List Action) : World :=
  (resume (appendLayout Nat Item) 7 (stopped actions)).getD start

theorem restartedSound :
    Sound (appendLayout Nat Item) chunksOfName
      ((againActions 1).foldl (perform (appendLayout Nat Item)) (restarted wholeActions)) ∧
    Inevitable (working (appendLayout Nat Item) chunksOfName false) Ended (restarted wholeActions) := by
  have run : AllAllowed (fun w a => True ∧ Allowed chunksOfName w a) (perform (appendLayout Nat Item)) start
      wholeActions := by decide
  have clean : Clean chunksOfName (stopped wholeActions) := by
    have entries : (stopped wholeActions).pipes.registry.items.entries =
        [(0, ⟨[97], 6, 12, 5, true, true, true, 2, 2, 10, 4⟩),
          (1, ⟨[98], maxCode, 0, 20, true, false, true, 0, 0, 10, 4⟩)] := by decide
    have tree : (stopped wholeActions).tree = [(0, 0), (0, 1)] := by decide
    intro id item found
    have mem := DenseMap.findMem.mp found
    rw [entries, List.mem_cons, List.mem_singleton] at mem
    rcases mem with same | same
    · cases same
      refine Or.inl ⟨rfl, by decide, by decide, fun sub => ?_⟩
      rw [tree]
      rcases sub with _ | _ | sub
      · decide
      · decide
      · simp [chunksOfName]
    · cases same
      refine Or.inr ⟨rfl, rfl, rfl, ?_⟩
      rw [tree]
      decide
  obtain ⟨first, resumed, sound⟩ :=
    @resumeSound (appendLayout Nat Item) _ _ (reachableUnder (reachableAllowed run)) clean 7
  have same : restarted wholeActions = first := by
    have here : resume (appendLayout Nat Item) 7 (stopped wholeActions) = some first := resumed
    rw [restarted, here]
    rfl
  rw [← same] at sound
  have settled : Settled (restarted wholeActions).pipes.registry := by
    intro id item found
    have every : ∀ e ∈ (restarted wholeActions).pipes.registry.items.entries, e.2.preInitSettled = true := by decide
    exact every _ (DenseMap.findMem.mp found)
  exact ⟨(sound (againActions 1) _ (runAllowed (by decide))).1, (sound [] _ (.nil _)).2 settled false⟩

/-! The one chunk of a file is in the tree and the file's end is still to be announced. After the
restart the file is read again, and the chunk is in the tree twice. -/

def partlyActions : List Action :=
  [.event (.registerFile [98]), .event (.preInit 0 (some 5) 10 4), .event (.dispatch 0), .event (.beginRead 0),
    .event (.readChunk 0), .event .takeSubAdded, .event (.sortChunk 0 6 9), .event .takeSorted,
    .insertChunk 0 0, .event .takeTreeDone]

theorem chunkTwice : ¬∀ layout chunks w, Reachable (system layout chunks) w → ∀ next,
    ∃ first, resume layout next w = some first ∧
      ∀ labels after, Run ((system layout chunks).under StepSound) first labels after → Sound layout chunks after ∧
        (Settled after.pipes.registry → ∀ fails, Inevitable (working layout chunks fails) Ended after) := by
  intro all
  have run : AllAllowed (fun w a => True ∧ Allowed chunksOfName w a) (perform (appendLayout Nat Item)) start
      partlyActions := by decide
  obtain ⟨first, resumed, sound⟩ := all _ _ _ (reachableUnder (reachableAllowed run)) 7
  have same : restarted partlyActions = first := by
    have here : resume (appendLayout Nat Item) 7 (stopped partlyActions) = some first := resumed
    rw [restarted, here]
    rfl
  rw [← same] at sound
  have later := (sound (againActions 0) _ (runAllowed (by decide))).1
  have ended : Ended ((againActions 0).foldl (perform (appendLayout Nat Item)) (restarted partlyActions)) := by
    constructor
    all_goals decide
  have found : ((againActions 0).foldl (perform (appendLayout Nat Item))
      (restarted partlyActions)).pipes.registry.items.find 0 =
        some ⟨[98], 6, 25, 5, true, true, true, 2, 2, 0, 0⟩ := by decide
  have once := later.once ended 0 _ found (by decide) 0
  exact absurd once (by decide)

end Dewfall.ResumedSession
