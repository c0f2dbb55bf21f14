import Dewfall.Converter.InputRegistry
import Dewfall.General.Transition
import Mathlib.Data.List.Pairwise
import Mathlib.Data.List.TakeWhile
import Mathlib.Tactic.ByContra

/-! The done boundary over whole runs of the registry. `chunks` is how many chunks the reader of a
dispatched file ever posts. The boundary looks at the first unfinished file of the dispatch list
only, so files behind it must not carry a smaller order; the first dispatched file is exempt,
because no boundary exists before it is done. -/
namespace Dewfall.DoneBoundary
open General General.Transition InputRegistry

structure World where
  registry : Registry
  chunks : Nat → Nat

def start : World := ⟨empty, fun _ => 0⟩

inductive Action where
  | registerFile (name : Name)
  | preInit (id : Nat) (order : Option Nat) (pointCount pointSizeBytes : Nat)
  | fileFailed (id : Nat)
  | dispatch (id chunks : Nat)
  | subAdded (id : Nat)
  | sorted (id min max : Nat)
  | readingDone (id : Nat)
  | treeDone (id : Nat)
  | askDoneMorton
  deriving DecidableEq, Repr

variable (layout : Layout Nat Item)

def perform (w : World) : Action → World
  | .registerFile name => { w with registry := (registerFile layout w.registry name).1 }
  | .preInit id order count size =>
    { w with registry := registerPreInitResult w.registry id order count size }
  | .fileFailed id => { w with registry := handleFileFailed w.registry id }
  | .dispatch id chunks => ⟨nextInputToProcess w.registry id, Function.update w.chunks id chunks⟩
  | .subAdded id => { w with registry := handleSubAdded w.registry id }
  | .sorted id min max => { w with registry := handleSortedPoints w.registry id min max }
  | .readingDone id => { w with registry := handleReadingDone w.registry id }
  | .treeDone id => { w with registry := handleTreeDoneWithInput w.registry id }
  | .askDoneMorton => { w with registry := (getDoneMorton w.registry).1 }

def has (w : World) (id : Nat) (p : Item → Prop) : Prop := ∃ item ∈ w.registry.items.find id, p item

instance (w id) (p : Item → Prop) [DecidablePred p] : Decidable (has w id p) := by
  unfold has; infer_instance

-- Only a dispatched file has a reader, which posts its chunks.
def Allowed (w : World) : Action → Prop
  | .registerFile _ | .askDoneMorton => True
  | .preInit id _ _ _ | .fileFailed id | .sorted id _ _ => has w id fun _ => True
  | .dispatch id _ => Next w.registry id
  | .subAdded id => has w id fun item => item.subCount < w.chunks id
  | .treeDone id => has w id fun item => item.insertedIntoTree < w.chunks id
  | .readingDone id => id ∈ w.registry.sortedInputSources

instance (w a) : Decidable (Allowed w a) := by
  cases a <;> dsimp only [Allowed] <;> infer_instance

def system : System World Action := System.ofFunction start Allowed (perform layout)

-- Unfinished files stand in the order of their codes.
def Sequence (done : Nat → Bool) (order : Nat → Nat) (ids : List Nat) : Prop :=
  ids.Pairwise fun f g => done f = true ∨ done g = true ∨ order f ≤ order g

instance (done order ids) : Decidable (Sequence done order ids) := by
  unfold Sequence; infer_instance

-- A file is dispatched behind unfinished files of no greater order, a later pre-init result keeps
-- that order, and a file is read to its end only after all its chunks were counted.
def StepSound (w : World) : Action → Prop
  | .dispatch id _ => ∀ f ∈ w.registry.sortedInputSources.drop 1,
      doneId w.registry.items f = true ∨ orderOf w.registry.items f ≤ orderOf w.registry.items id
  | .preInit id order _ _ => Sequence (doneId w.registry.items)
      (Function.update (orderOf w.registry.items) id (order.getD 0))
      (w.registry.sortedInputSources.drop 1)
  | .readingDone id | .fileFailed id => has w id fun item => item.subCount = w.chunks id
  | _ => True

instance (w a) : Decidable (StepSound w a) := by
  cases a <;> dsimp only [StepSound] <;> infer_instance

def CompletelyInserted (w : World) (id : Nat) (item : Item) : Prop :=
  item.readFinished = true ∧ w.chunks id ≤ item.insertedIntoTree

def BoundarySound (w : World) : Prop :=
  ∀ boundary, (getDoneMorton w.registry).2 = some boundary → ∀ minCode : Nat → Nat,
    (∀ id item, w.registry.items.find id = some item → item.inputOrder ≤ minCode id) →
    ∀ id item, w.registry.items.find id = some item → ¬CompletelyInserted w id item →
      boundary ≤ minCode id

/-! ## Changes of one file -/

def Changed (before after : DenseMap Nat Item) (id : Nat) (f : Item → Item) : Prop :=
  ∀ k, after.find k = if k = id then (before.find id).map f else before.find k

theorem modifyItemChanged (items : DenseMap Nat Item) (id : Nat) (f : Item → Item) :
    Changed items (modifyItem items id f) id f := by
  intro k
  unfold modifyItem
  cases found : items.find id with
  | none =>
    simp only [Option.map_none]
    split
    · rename_i same
      rw [same, found]
    · rfl
  | some item => rw [DenseMap.findAssign found, Option.map_some]

theorem finishReadChanged (r : Registry) (id : Nat) :
    Changed r.items (finishRead r id).items id fun item => { item with readFinished := true } := by
  intro k
  unfold finishRead
  cases found : r.items.find id with
  | none =>
    simp only [Option.map_none]
    split
    · rename_i same
      rw [same, found]
    · rfl
  | some item =>
    simp only [Option.map_some]
    split
    · rename_i finished
      split
      · rename_i same
        rw [same, found, ← finished]
      · rfl
    · rw [DenseMap.findAssign found]

theorem changedTrans {first second third id f g} (one : Changed first second id f)
    (two : Changed second third id g) : Changed first third id fun item => g (f item) := by
  intro k
  rw [two k]
  split
  · rw [one id, if_pos rfl, Option.map_map]
    rfl
  · rename_i other
    rw [one k, if_neg other]

theorem changedFind {before after id f k item} (changed : Changed before after id f)
    (found : after.find k = some item) :
    ∃ old, before.find k = some old ∧ item = if k = id then f old else old := by
  rw [changed k] at found
  split at found
  · rename_i same
    obtain ⟨old, there, rfl⟩ := Option.map_eq_some_iff.mp found
    exact ⟨old, by rw [same, there], by rw [if_pos same]⟩
  · rename_i other
    exact ⟨item, found, by rw [if_neg other]⟩

theorem changedKeep {before after id f k old} (changed : Changed before after id f)
    (found : before.find k = some old) : after.find k = some (if k = id then f old else old) := by
  rw [changed k]
  split
  · rename_i same
    rw [← same, found, Option.map_some]
  · exact found

theorem doneChanged {before after id f} (changed : Changed before after id f)
    (keeps : ∀ item, before.find id = some item → item.done = true → (f item).done = true)
    {k} (done : doneId before k = true) : doneId after k = true := by
  unfold doneId at *
  cases found : before.find k with
  | none => simp [found] at done
  | some item =>
    rw [found] at done
    rw [changedKeep changed found]
    split
    · rename_i same
      exact keeps item (same ▸ found) done
    · exact done

theorem orderChanged {before after id f} (changed : Changed before after id f)
    (keeps : ∀ item, (f item).inputOrder = item.inputOrder) (k : Nat) :
    orderOf after k = orderOf before k := by
  unfold InputRegistry.orderOf
  cases found : before.find k with
  | none =>
    rw [changed k]
    split
    · rename_i same
      rw [← same, found]
      rfl
    · rw [found]
  | some item =>
    rw [changedKeep changed found, Option.map_some, Option.map_some]
    split
    · rw [keeps]
    · rfl

theorem sequenceMono {done done' : Nat → Bool} {order order' : Nat → Nat} {ids : List Nat}
    (more : ∀ k, done k = true → done' k = true) (same : ∀ k, order' k = order k)
    (sequence : Sequence done order ids) : Sequence done' order' ids := by
  refine sequence.imp fun {f g} either => ?_
  rw [same, same]
  exact either.imp (more f) (Or.imp_left (more g))

/-! ## The invariant -/

structure Invariant (w : World) : Prop where
  fresh : ∀ id item, w.registry.items.find id = some item → id < w.registry.nextInputId
  started : ∀ id ∈ w.registry.sortedInputSources, has w id fun item => item.readStarted = true
  distinct : w.registry.sortedInputSources.Nodup
  retired : ∀ id item, w.registry.items.find id = some item → item.readStarted = true →
    id ∉ w.registry.sortedInputSources → item.readFinished = true
  counted : ∀ id item, w.registry.items.find id = some item → item.readFinished = true →
    item.subCount = w.chunks id
  read : ∀ id item, w.registry.items.find id = some item → item.readFinished = true →
    item.readStarted = true
  undispatched : ∀ id, id ∉ w.registry.sortedInputSources → w.chunks id = 0
  waiting : w.registry.unsortedInputSourcesDirty = false →
    w.registry.unsortedInputSources.Nodup ∧
      ∀ id ∈ w.registry.unsortedInputSources, has w id fun item => item.readStarted = false
  cursor : w.registry.donePrefixIndex ≤ w.registry.sortedInputSources.length
  finished : ∀ id ∈ w.registry.sortedInputSources.take w.registry.donePrefixIndex,
    doneId w.registry.items id = true
  sequence : Sequence (doneId w.registry.items) (orderOf w.registry.items)
    (w.registry.sortedInputSources.drop 1)

theorem startInvariant : Invariant start := by
  have absent : ∀ id, start.registry.items.find id = none := fun id => rfl
  refine ⟨?_, by simp [start, empty], List.nodup_nil, ?_, ?_, ?_, fun _ _ => rfl, ?_, Nat.le_refl _,
    by simp [start, empty], List.Pairwise.nil⟩
  · intro id item found
    rw [absent id] at found
    contradiction
  · intro id item found
    rw [absent id] at found
    contradiction
  · intro id item found
    rw [absent id] at found
    contradiction
  · intro id item found
    rw [absent id] at found
    contradiction
  · intro clean
    exact absurd clean (by decide)

-- A step that changes one file and leaves dispatch and the cursor alone.
structure Local (w after : World) (id : Nat) (f : Item → Item) : Prop where
  items : Changed w.registry.items after.registry.items id f
  chunks : after.chunks = w.chunks
  next : after.registry.nextInputId = w.registry.nextInputId
  sorted : after.registry.sortedInputSources = w.registry.sortedInputSources
  cursor : after.registry.donePrefixIndex = w.registry.donePrefixIndex

theorem localInvariant {w after id f} (inv : Invariant w) (step : Local w after id f)
    (starts : ∀ item, item.readStarted = true → (f item).readStarted = true)
    (retires : ∀ item, w.registry.items.find id = some item → (f item).readStarted = true →
      id ∉ w.registry.sortedInputSources → (f item).readFinished = true)
    (counts : ∀ item, w.registry.items.find id = some item → (f item).readFinished = true →
      (f item).subCount = w.chunks id)
    (reads : ∀ item, w.registry.items.find id = some item → (f item).readFinished = true →
      (f item).readStarted = true)
    (dones : ∀ item, w.registry.items.find id = some item → item.done = true → (f item).done = true)
    (waits : after.registry.unsortedInputSourcesDirty = false →
      after.registry.unsortedInputSources.Nodup ∧
        ∀ id ∈ after.registry.unsortedInputSources, has after id fun item => item.readStarted = false)
    (sequence : Sequence (doneId w.registry.items) (orderOf after.registry.items)
      (w.registry.sortedInputSources.drop 1)) : Invariant after := by
  have more : ∀ k, doneId w.registry.items k = true → doneId after.registry.items k = true :=
    fun k => doneChanged step.items dones
  refine ⟨?_, ?_, step.sorted ▸ inv.distinct, ?_, ?_, ?_, ?_, waits, ?_, ?_, ?_⟩
  · intro k item found
    obtain ⟨old, there, _⟩ := changedFind step.items found
    rw [step.next]
    exact inv.fresh k old there
  · intro k mem
    rw [step.sorted] at mem
    obtain ⟨old, there, started⟩ := inv.started k mem
    refine ⟨_, changedKeep step.items there, ?_⟩
    split
    · exact starts old started
    · exact started
  · intro k item found started outside
    obtain ⟨old, there, rfl⟩ := changedFind step.items found
    rw [step.sorted] at outside
    by_cases same : k = id
    · subst same
      rw [if_pos rfl] at started ⊢
      exact retires old there started outside
    · rw [if_neg same] at started ⊢
      exact inv.retired k old there started outside
  · intro k item found finished
    obtain ⟨old, there, rfl⟩ := changedFind step.items found
    rw [step.chunks]
    by_cases same : k = id
    · subst same
      rw [if_pos rfl] at finished ⊢
      exact counts old there finished
    · rw [if_neg same] at finished ⊢
      exact inv.counted k old there finished
  · intro k item found finished
    obtain ⟨old, there, rfl⟩ := changedFind step.items found
    by_cases same : k = id
    · subst same
      rw [if_pos rfl] at finished ⊢
      exact reads old there finished
    · rw [if_neg same] at finished ⊢
      exact inv.read k old there finished
  · intro k outside
    rw [step.sorted] at outside
    rw [step.chunks]
    exact inv.undispatched k outside
  · rw [step.sorted, step.cursor]
    exact inv.cursor
  · intro k mem
    rw [step.sorted, step.cursor] at mem
    exact more k (inv.finished k mem)
  · rw [step.sorted]
    exact sequenceMono more (fun _ => rfl) sequence

theorem waitingKept {w after : World} {id f} (inv : Invariant w) (step : Local w after id f)
    (dirty : after.registry.unsortedInputSourcesDirty = w.registry.unsortedInputSourcesDirty)
    (unsorted : after.registry.unsortedInputSources = w.registry.unsortedInputSources)
    (waits : ∀ item, item.readStarted = false → (f item).readStarted = false) :
    after.registry.unsortedInputSourcesDirty = false →
      after.registry.unsortedInputSources.Nodup ∧
        ∀ id ∈ after.registry.unsortedInputSources, has after id fun item => item.readStarted = false := by
  intro clean
  rw [dirty] at clean
  obtain ⟨distinct, idle⟩ := inv.waiting clean
  rw [unsorted]
  refine ⟨distinct, fun k mem => ?_⟩
  obtain ⟨old, there, free⟩ := idle k mem
  refine ⟨_, changedKeep step.items there, ?_⟩
  split
  · exact waits old free
  · exact free

theorem dirtyWaits {w : World} (dirty : w.registry.unsortedInputSourcesDirty = true) :
    w.registry.unsortedInputSourcesDirty = false → w.registry.unsortedInputSources.Nodup ∧
      ∀ id ∈ w.registry.unsortedInputSources, has w id fun item => item.readStarted = false := by
  intro clean
  rw [dirty] at clean
  contradiction

theorem subAddedInvariant {w id} (inv : Invariant w)
    (room : has w id fun item => item.subCount < w.chunks id) :
    Invariant { w with registry := handleSubAdded w.registry id } := by
  obtain ⟨now, there, room⟩ := room
  have only : ∀ item, w.registry.items.find id = some item → item.readFinished = false := by
    intro item found
    cases Option.some.inj (found.symm.trans there)
    rw [← Bool.not_eq_true]
    intro finished
    have := inv.counted id now there finished
    omega
  have step : Local w { w with registry := handleSubAdded w.registry id } id
      fun item => { item with subCount := item.subCount + 1 } :=
    ⟨modifyItemChanged _ _ _, rfl, rfl, rfl, rfl⟩
  refine localInvariant inv step (fun _ h => h) (fun item found => inv.retired id item found) ?_
    (fun item found => inv.read id item found) ?_ (waitingKept inv step rfl rfl fun _ h => h)
    (sequenceMono (fun _ h => h) (orderChanged step.items fun _ => rfl) inv.sequence)
  · intro item found finished
    exact absurd ((only item found).symm.trans finished) Bool.false_ne_true
  · intro item found done
    simp [Item.done, only item found] at done

theorem sortedInvariant {w id min max} (inv : Invariant w) :
    Invariant { w with registry := handleSortedPoints w.registry id min max } := by
  have step : Local w { w with registry := handleSortedPoints w.registry id min max } id _ :=
    ⟨modifyItemChanged _ _ _, rfl, rfl, rfl, rfl⟩
  exact localInvariant inv step (fun _ h => h) (fun item found => inv.retired id item found)
    (fun item found => inv.counted id item found) (fun item found => inv.read id item found)
    (fun _ _ h => h) (waitingKept inv step rfl rfl fun _ h => h)
    (sequenceMono (fun _ h => h) (orderChanged step.items fun _ => rfl) inv.sequence)

theorem treeDoneInvariant {w id} (inv : Invariant w) :
    Invariant { w with registry := handleTreeDoneWithInput w.registry id } := by
  have step : Local w { w with registry := handleTreeDoneWithInput w.registry id } id _ :=
    ⟨modifyItemChanged _ _ _, rfl, rfl, rfl, rfl⟩
  refine localInvariant inv step (fun _ h => h) (fun item found => inv.retired id item found)
    (fun item found => inv.counted id item found) (fun item found => inv.read id item found) ?_
    (waitingKept inv step rfl rfl fun _ h => h)
    (sequenceMono (fun _ h => h) (orderChanged step.items fun _ => rfl) inv.sequence)
  intro item found done
  simp only [Item.done, Bool.and_eq_true, decide_eq_true_eq] at done ⊢
  exact ⟨done.1, by omega⟩

theorem finishReadFrame (r : Registry) (id : Nat) :
    (finishRead r id).nextInputId = r.nextInputId ∧
      (finishRead r id).sortedInputSources = r.sortedInputSources ∧
      (finishRead r id).donePrefixIndex = r.donePrefixIndex ∧
      (finishRead r id).unsortedInputSourcesDirty = r.unsortedInputSourcesDirty ∧
      (finishRead r id).unsortedInputSources = r.unsortedInputSources := by
  unfold finishRead
  repeat' split
  all_goals exact ⟨rfl,rfl,rfl,rfl,rfl⟩

theorem readingDoneInvariant {w id} (inv : Invariant w) (reader : id ∈ w.registry.sortedInputSources)
    (counted : has w id fun item => item.subCount = w.chunks id) :
    Invariant { w with registry := handleReadingDone w.registry id } := by
  obtain ⟨now, there, counted⟩ := counted
  obtain ⟨next, sorted, cursor, dirty, unsorted⟩ := finishReadFrame w.registry id
  have step : Local w { w with registry := handleReadingDone w.registry id } id _ :=
    ⟨finishReadChanged _ _, rfl, next, sorted, cursor⟩
  refine localInvariant inv step (fun _ h => h) (fun _ _ _ outside => absurd reader outside) ?_ ?_ ?_
    (waitingKept inv step dirty unsorted fun _ h => h)
    (sequenceMono (fun _ h => h) (orderChanged step.items fun _ => rfl) inv.sequence)
  · intro item found _
    cases Option.some.inj (found.symm.trans there)
    exact counted
  · intro item found _
    obtain ⟨now, there, started⟩ := inv.started id reader
    cases Option.some.inj (found.symm.trans there)
    exact started
  · intro item _ done
    simp only [Item.done, Bool.and_eq_true] at done ⊢
    exact ⟨trivial, done.2⟩

theorem fileFailedInvariant {w id} (inv : Invariant w)
    (counted : has w id fun item => item.subCount = w.chunks id) :
    Invariant { w with registry := handleFileFailed w.registry id } := by
  obtain ⟨now, there, counted⟩ := counted
  obtain ⟨next, sorted, cursor, dirty, _⟩ := finishReadFrame { w.registry with
    items := modifyItem w.registry.items id fun item =>
      { item with preInitSettled := true, readStarted := true }
    unsortedInputSourcesDirty := true } id
  have step : Local w { w with registry := handleFileFailed w.registry id } id _ :=
    ⟨changedTrans (modifyItemChanged _ _ _) (finishReadChanged _ _), rfl, next, sorted, cursor⟩
  refine localInvariant inv step (fun _ _ => rfl) (fun _ _ _ _ => rfl) ?_ (fun _ _ _ => rfl) ?_ (dirtyWaits dirty)
    (sequenceMono (fun _ h => h) (orderChanged step.items fun _ => rfl) inv.sequence)
  · intro item found _
    cases Option.some.inj (found.symm.trans there)
    exact counted
  · intro item _ done
    simp only [Item.done, Bool.and_eq_true] at done ⊢
    exact ⟨trivial, done.2⟩

theorem preInitInvariant {w id order count size} (inv : Invariant w)
    (registered : has w id fun _ => True)
    (sequence : Sequence (doneId w.registry.items)
      (Function.update (orderOf w.registry.items) id (order.getD 0))
      (w.registry.sortedInputSources.drop 1)) :
    Invariant { w with registry := registerPreInitResult w.registry id order count size } := by
  have step : Local w { w with registry := registerPreInitResult w.registry id order count size }
      id _ := ⟨modifyItemChanged _ _ _, rfl, rfl, rfl, rfl⟩
  refine localInvariant inv step (fun _ h => h) (fun item found => inv.retired id item found)
    (fun item found => inv.counted id item found) (fun item found => inv.read id item found)
    (fun _ _ h => h) (dirtyWaits rfl) ?_
  refine sequenceMono (fun _ h => h) (fun k => ?_) sequence
  obtain ⟨now, there, _⟩ := registered
  unfold InputRegistry.orderOf
  rw [step.items k]
  by_cases same : k = id
  · subst same
    rw [if_pos rfl, Function.update_self, there]
    rfl
  · rw [if_neg same, Function.update_of_ne same]

theorem registerInvariant {w name} (inv : Invariant w) :
    Invariant { w with registry := (registerFile layout w.registry name).1 } := by
  unfold registerFile
  split
  · exact inv
  have absent : w.registry.items.find w.registry.nextInputId = none := by
    cases found : w.registry.items.find w.registry.nextInputId with
    | none => rfl
    | some item => exact absurd (inv.fresh _ item found) (Nat.lt_irrefl _)
  have added := @DenseMap.findEmplace _ _ _ layout _ _ absent (freshItem name)
  have old : ∀ k item, w.registry.items.find k = some item → k ≠ w.registry.nextInputId := by
    intro k item found same
    rw [same, absent] at found
    contradiction
  have kept : ∀ k item, w.registry.items.find k = some item →
      (w.registry.items.emplace layout w.registry.nextInputId (freshItem name)).find k = some item := by
    intro k item found
    rw [added, if_neg (old k item found), found]
  have back : ∀ k item,
      (w.registry.items.emplace layout w.registry.nextInputId (freshItem name)).find k = some item →
      k = w.registry.nextInputId ∧ item = freshItem name ∨ w.registry.items.find k = some item := by
    intro k item found
    rw [added] at found
    split at found
    · exact Or.inl ⟨by assumption, (Option.some.inj found).symm⟩
    · exact Or.inr found
  have done : ∀ k, doneId w.registry.items k = true →
      doneId (w.registry.items.emplace layout w.registry.nextInputId (freshItem name)) k = true := by
    intro k done
    unfold doneId at *
    cases found : w.registry.items.find k with
    | none => simp [found] at done
    | some item =>
      rw [found] at done
      rwa [kept k item found]
  have order : ∀ k ∈ w.registry.sortedInputSources.drop 1,
      orderOf (w.registry.items.emplace layout w.registry.nextInputId (freshItem name)) k =
        orderOf w.registry.items k := by
    intro k mem
    obtain ⟨item, found, _⟩ := inv.started k (List.mem_of_mem_drop mem)
    rw [InputRegistry.orderOf, InputRegistry.orderOf, kept k item found, found]
  refine ⟨?_, ?_, inv.distinct, ?_, ?_, ?_, inv.undispatched, ?_, inv.cursor, ?_, ?_⟩
  · intro k item found
    rcases back k item found with ⟨rfl, _⟩ | there
    · exact Nat.lt_succ_self _
    · exact Nat.lt_succ_of_lt (inv.fresh k item there)
  · intro k mem
    obtain ⟨item, found, started⟩ := inv.started k mem
    exact ⟨item, kept k item found, started⟩
  · intro k item found started outside
    rcases back k item found with ⟨_, rfl⟩ | there
    · exact absurd started (by simp [freshItem])
    · exact inv.retired k item there started outside
  · intro k item found finished
    rcases back k item found with ⟨_, rfl⟩ | there
    · exact absurd finished (by simp [freshItem])
    · exact inv.counted k item there finished
  · intro k item found finished
    rcases back k item found with ⟨_, rfl⟩ | there
    · exact absurd finished (by simp [freshItem])
    · exact inv.read k item there finished
  · intro clean
    obtain ⟨distinct, idle⟩ := inv.waiting clean
    refine ⟨distinct, fun k mem => ?_⟩
    obtain ⟨item, found, free⟩ := idle k mem
    exact ⟨item, kept k item found, free⟩
  · exact fun k mem => done k (inv.finished k mem)
  · refine List.Pairwise.imp_of_mem ?_ inv.sequence
    intro f g memF memG either
    rw [order f memF, order g memG]
    exact either.imp (done f) (Or.imp_left (done g))

/-! ## Dispatch -/

theorem rebuildFrame (r : Registry) : (rebuildUnsorted r).items = r.items ∧
    (rebuildUnsorted r).sortedInputSources = r.sortedInputSources ∧
    (rebuildUnsorted r).nextInputId = r.nextInputId ∧
    (rebuildUnsorted r).donePrefixIndex = r.donePrefixIndex ∧
    (rebuildUnsorted r).unsortedInputSourcesDirty = false := by
  unfold rebuildUnsorted
  split
  · exact ⟨rfl,rfl,rfl,rfl,rfl⟩
  · rename_i clean
    exact ⟨rfl,rfl,rfl,rfl,by simpa using clean⟩

theorem rebuildWaiting {w} (inv : Invariant w) : (rebuildUnsorted w.registry).unsortedInputSources.Nodup ∧
    ∀ id ∈ (rebuildUnsorted w.registry).unsortedInputSources,
      has w id fun item => item.readStarted = false := by
  unfold rebuildUnsorted
  split
  · refine ⟨?_, fun id mem => ?_⟩
    · exact w.registry.items.distinct.sublist (List.filter_sublist.map _)
    · obtain ⟨⟨key, item⟩, entry, rfl⟩ := List.mem_map.mp mem
      obtain ⟨entry, free⟩ := List.mem_filter.mp entry
      simp only [Bool.and_eq_true, Bool.not_eq_true'] at free
      exact ⟨item, DenseMap.findMem.mpr entry, free.1⟩
  · rename_i clean
    exact inv.waiting (by simpa using clean)

theorem dispatchInvariant {w id chunks} (inv : Invariant w) (next : Next w.registry id)
    (sequence : ∀ f ∈ w.registry.sortedInputSources.drop 1,
      doneId w.registry.items f = true ∨ orderOf w.registry.items f ≤ orderOf w.registry.items id) :
    Invariant ⟨nextInputToProcess w.registry id, Function.update w.chunks id chunks⟩ := by
  obtain ⟨items, sorted, counter, cursor, _⟩ := rebuildFrame w.registry
  obtain ⟨distinct, idle⟩ := rebuildWaiting inv
  obtain ⟨now, there, free⟩ := idle id next.1
  have outside : id ∉ w.registry.sortedInputSources := by
    intro mem
    obtain ⟨item, found, started⟩ := inv.started id mem
    cases Option.some.inj (found.symm.trans there)
    exact absurd (free.symm.trans started) Bool.false_ne_true
  have unread : now.readFinished = false := by
    rw [← Bool.not_eq_true]
    intro finished
    exact absurd (free.symm.trans (inv.read id now there finished)) Bool.false_ne_true
  have changed := modifyItemChanged w.registry.items id fun item => { item with readStarted := true }
  have done : ∀ k, doneId w.registry.items k = true → doneId _ k = true :=
    fun k => doneChanged changed fun _ _ h => h
  have order := orderChanged changed fun _ => rfl
  unfold nextInputToProcess
  dsimp only
  rw [items, sorted, counter, cursor]
  refine ⟨?_, ?_, ?_, ?_, ?_, ?_, ?_, fun _ => ⟨distinct.erase id, ?_⟩, ?_, ?_, ?_⟩
  · intro k item found
    obtain ⟨old, before, _⟩ := changedFind changed found
    exact inv.fresh k old before
  · intro k mem
    rcases List.mem_append.mp mem with earlier | last
    · obtain ⟨item, found, started⟩ := inv.started k earlier
      refine ⟨_, changedKeep changed found, ?_⟩
      split
      · rfl
      · exact started
    · rw [List.mem_singleton.mp last]
      exact ⟨_, changedKeep changed there, by rw [if_pos rfl]⟩
  · refine List.nodup_append.mpr ⟨inv.distinct, List.nodup_singleton id, ?_⟩
    intro k mem other last same
    rw [List.mem_singleton.mp last] at same
    exact outside (same ▸ mem)
  · intro k item found started away
    obtain ⟨old, before, rfl⟩ := changedFind changed found
    have other : k ≠ id := fun same => away (by simp [same])
    rw [if_neg other] at started ⊢
    exact inv.retired k old before started fun mem => away (List.mem_append_left _ mem)
  · intro k item found finished
    obtain ⟨old, before, rfl⟩ := changedFind changed found
    by_cases same : k = id
    · subst same
      cases Option.some.inj (before.symm.trans there)
      rw [if_pos rfl] at finished
      exact absurd (unread.symm.trans finished) Bool.false_ne_true
    · rw [if_neg same] at finished ⊢
      exact (inv.counted k old before finished).trans (Function.update_of_ne same _ _).symm
  · intro k item found finished
    obtain ⟨old, before, rfl⟩ := changedFind changed found
    by_cases same : k = id
    · rw [if_pos same]
    · rw [if_neg same] at finished ⊢
      exact inv.read k old before finished
  · intro k away
    have other : k ≠ id := fun same => away (by simp [same])
    exact (Function.update_of_ne other _ _).trans
      (inv.undispatched k fun mem => away (List.mem_append_left _ mem))
  · intro k mem
    obtain ⟨other, waiting⟩ := distinct.mem_erase_iff.mp mem
    obtain ⟨item, found, free⟩ := idle k waiting
    exact ⟨_, changedKeep changed found, by rw [if_neg other]; exact free⟩
  · rw [List.length_append]
    exact Nat.le_trans inv.cursor (Nat.le_add_right _ _)
  · intro k mem
    rw [List.take_append_of_le_length inv.cursor] at mem
    exact done k (inv.finished k mem)
  · have kept := sequenceMono done order inv.sequence
    cases first : w.registry.sortedInputSources with
    | nil => exact List.Pairwise.nil
    | cons head rest =>
      rw [first] at kept sequence
      refine List.pairwise_append.mpr ⟨kept, List.pairwise_singleton _ _, ?_⟩
      intro f mem g last
      rw [List.mem_singleton.mp last, order, order]
      rcases sequence f mem with finished | smaller
      · exact Or.inl (done f finished)
      · exact Or.inr (Or.inr smaller)

/-! ## The boundary -/

theorem advancedTake (items : DenseMap Nat Item) (sorted : List Nat) (index : Nat) :
    sorted.take (advancePrefix items sorted index) =
      sorted.take index ++ (sorted.drop index).takeWhile (doneId items) := by
  unfold advancePrefix
  rw [List.take_add, ← List.prefix_iff_eq_take.mp (List.takeWhile_prefix _)]

theorem advancedDrop (items : DenseMap Nat Item) (sorted : List Nat) (index : Nat) :
    sorted.drop (advancePrefix items sorted index) =
      (sorted.drop index).dropWhile (doneId items) := by
  unfold advancePrefix
  have split := List.takeWhile_append_dropWhile (p := doneId items) (l := sorted.drop index)
  have behind := congrArg (List.drop ((sorted.drop index).takeWhile (doneId items)).length) split
  rw [List.drop_left, List.drop_drop] at behind
  exact behind.symm

theorem advancedDone {items : DenseMap Nat Item} {sorted : List Nat} {index : Nat}
    (finished : ∀ id ∈ sorted.take index, doneId items id = true) :
    ∀ id ∈ sorted.take (advancePrefix items sorted index), doneId items id = true := by
  intro id mem
  rw [advancedTake, List.mem_append] at mem
  rcases mem with earlier | later
  · exact finished id earlier
  · exact List.mem_takeWhile_imp later

theorem advancedLe (items : DenseMap Nat Item) {sorted : List Nat} {index : Nat}
    (cursor : index ≤ sorted.length) : advancePrefix items sorted index ≤ sorted.length := by
  have short := (List.takeWhile_prefix (doneId items) (l := sorted.drop index)).length_le
  rw [List.length_drop] at short
  unfold advancePrefix
  omega

theorem askInvariant {w} (inv : Invariant w) :
    Invariant { w with registry := (getDoneMorton w.registry).1 } := by
  have limit := advancedLe w.registry.items inv.cursor
  have finished := advancedDone inv.finished
  unfold getDoneMorton
  dsimp only
  generalize advancePrefix w.registry.items w.registry.sortedInputSources _ = index at *
  have advanced : Invariant { w with registry := { w.registry with donePrefixIndex := index } } :=
    ⟨inv.fresh, inv.started, inv.distinct, inv.retired, inv.counted, inv.read, inv.undispatched,
      inv.waiting, limit, finished, inv.sequence⟩
  split
  · exact inv
  split
  · exact advanced
  split
  · exact advanced
  · exact advanced

theorem clampLe (entries : List (Nat × Item)) (boundary : Nat) :
    clampUndispatched entries boundary ≤ boundary ∧ ∀ e ∈ entries, e.2.readStarted = false →
      clampUndispatched entries boundary ≤ e.2.inputOrder := by
  induction entries generalizing boundary with
  | nil => exact ⟨Nat.le_refl _, by simp⟩
  | cons e rest ih =>
    obtain ⟨whole, each⟩ := ih
      (if !e.2.readStarted && e.2.inputOrder < boundary then e.2.inputOrder else boundary)
    have step : clampUndispatched (e :: rest) boundary = clampUndispatched rest
      (if !e.2.readStarted && e.2.inputOrder < boundary then e.2.inputOrder else boundary) := rfl
    rw [step]
    have here : (if !e.2.readStarted && e.2.inputOrder < boundary then e.2.inputOrder else boundary)
        ≤ boundary := by
      split
      · rename_i smaller
        simp only [Bool.and_eq_true, decide_eq_true_eq] at smaller
        exact Nat.le_of_lt smaller.2
      · exact Nat.le_refl _
    refine ⟨Nat.le_trans whole here, fun f mem idle => ?_⟩
    rcases List.mem_cons.mp mem with rfl | later
    · refine Nat.le_trans whole ?_
      split
      · exact Nat.le_refl _
      · rename_i larger
        simpa [idle] using larger
    · exact each f later idle

theorem firstUnfinishedLe {items : DenseMap Nat Item} {sorted : List Nat} {index id : Nat} {item}
    (here : sorted[index]? = some id) (found : items.find id = some item) :
    firstUnfinished items sorted index ≤ item.inputOrder := by
  unfold firstUnfinished
  rw [here, Option.bind_some, found]
  dsimp only
  split
  · rename_i smaller
    exact Nat.le_of_lt smaller
  · exact Nat.le_refl _

theorem dispatchedLe {w id item} (inv : Invariant w)
    (mem : id ∈ w.registry.sortedInputSources) (found : w.registry.items.find id = some item)
    (unfinished : doneId w.registry.items id = false)
    (positive : advancePrefix w.registry.items w.registry.sortedInputSources
      w.registry.donePrefixIndex ≠ 0) :
    firstUnfinished w.registry.items w.registry.sortedInputSources
      (advancePrefix w.registry.items w.registry.sortedInputSources w.registry.donePrefixIndex) ≤
      item.inputOrder := by
  have before := advancedDone inv.finished
  have drop := advancedDrop w.registry.items w.registry.sortedInputSources w.registry.donePrefixIndex
  generalize advancePrefix w.registry.items w.registry.sortedInputSources _ = index at *
  have split := List.take_append_drop index w.registry.sortedInputSources
  rw [← split, List.mem_append] at mem
  have later : id ∈ w.registry.sortedInputSources.drop index := by
    refine mem.resolve_left fun early => ?_
    exact absurd (unfinished.symm.trans (before id early)) Bool.false_ne_true
  cases tail : w.registry.sortedInputSources.drop index with
  | nil => simp [tail] at later
  | cons next rest =>
    have here : w.registry.sortedInputSources[index]? = some next := by
      have first := congrArg List.head? tail
      rwa [List.head?_drop] at first
    have pending : doneId w.registry.items next = false := by
      have head := List.head?_dropWhile_not (doneId w.registry.items)
        (w.registry.sortedInputSources.drop w.registry.donePrefixIndex)
      rw [← drop, tail] at head
      simpa using head
    obtain ⟨first, there, _⟩ := inv.started next
      (List.mem_of_mem_drop (tail ▸ List.mem_cons_self))
    refine Nat.le_trans (firstUnfinishedLe here there) ?_
    rw [tail] at later
    rcases List.mem_cons.mp later with rfl | behind
    · cases Option.some.inj (found.symm.trans there)
      exact Nat.le_refl _
    · have ordered : Sequence (doneId w.registry.items) (orderOf w.registry.items) (next :: rest) := by
        rw [← tail, ← Nat.add_sub_cancel' (Nat.pos_of_ne_zero positive), ← List.drop_drop]
        exact inv.sequence.sublist (List.drop_sublist _ _)
      have pair := (List.pairwise_cons.mp ordered).1 id behind
      rw [pending, unfinished, InputRegistry.orderOf, InputRegistry.orderOf, there, found] at pair
      simpa using pair

theorem invariantSound {w} (inv : Invariant w) : BoundarySound w := by
  intro boundary yields minCode lower id item found incomplete
  refine Nat.le_trans ?_ (lower id item found)
  unfold getDoneMorton at yields
  dsimp only at yields
  split at yields
  · contradiction
  split at yields
  · contradiction
  rename_i positive
  split at yields
  · cases Option.some.inj yields
    obtain ⟨whole, each⟩ := clampLe w.registry.items.entries (firstUnfinished w.registry.items
      w.registry.sortedInputSources (advancePrefix w.registry.items w.registry.sortedInputSources
        w.registry.donePrefixIndex))
    cases started : item.readStarted with
    | false => exact each (id, item) (DenseMap.findMem.mp found) started
    | true =>
      have mem : id ∈ w.registry.sortedInputSources := by
        by_contra outside
        have finished := inv.retired id item found started outside
        exact incomplete ⟨finished, by rw [inv.undispatched id outside]; exact Nat.zero_le _⟩
      have unfinished : doneId w.registry.items id = false := by
        rw [← Bool.not_eq_true]
        intro done
        rw [doneId, found] at done
        simp only [Option.map_some, Option.getD_some, Item.done, Bool.and_eq_true,
          decide_eq_true_eq] at done
        refine incomplete ⟨done.1, ?_⟩
        rw [← inv.counted id item found done.1]
        exact done.2
      exact Nat.le_trans whole (dispatchedLe inv mem found unfinished positive)
  · contradiction

/-! ## Runs -/

theorem runInvariant : Inductive ((system layout).under StepSound) Invariant := by
  constructor
  · intro w first
    cases first
    exact startInvariant
  · intro w a after inv step
    obtain ⟨sound, allowed, rfl⟩ := step
    cases a with
    | registerFile name => exact registerInvariant layout inv
    | preInit id order count size => exact preInitInvariant inv allowed sound
    | fileFailed id => exact fileFailedInvariant inv sound
    | dispatch id chunks => exact dispatchInvariant inv allowed sound
    | subAdded id => exact subAddedInvariant inv allowed
    | sorted id min max => exact sortedInvariant inv
    | readingDone id => exact readingDoneInvariant inv allowed sound
    | treeDone id => exact treeDoneInvariant inv
    | askDoneMorton => exact askInvariant inv

theorem doneBoundarySound {w} (reach : Reachable ((system layout).under StepSound) w) :
    BoundarySound w :=
  invariantSound (reachableInvariant (runInvariant layout) reach)

-- Two files of rising order; the first is in the tree and the second has counted a chunk.
def risingActions : List Action :=
  [.registerFile [97], .registerFile [98], .preInit 0 (some 5) 10 4, .preInit 1 (some 20) 10 4,
    .dispatch 0 1, .dispatch 1 1, .subAdded 0, .sorted 0 6 9, .subAdded 1, .readingDone 0,
    .treeDone 0, .askDoneMorton]

theorem risingSound :
    BoundarySound (risingActions.foldl (perform (appendLayout Nat Item)) start) :=
  doneBoundarySound _ (reachableAllowed (by decide))

/-! A file registered while two others are in flight carries an order between theirs. It is
dispatched behind the greater one, and the boundary, read off the greater one, passes it. -/

def lateActions : List Action :=
  [.registerFile [97], .registerFile [98], .preInit 0 (some 5) 10 4, .preInit 1 (some 20) 10 4,
    .dispatch 0 1, .dispatch 1 1, .registerFile [99], .preInit 2 (some 10) 10 4, .dispatch 2 1,
    .subAdded 0, .readingDone 0, .treeDone 0]

theorem lateBoundary : let w := lateActions.foldl (perform (appendLayout Nat Item)) start
    (getDoneMorton w.registry).2 = some 20 ∧
      w.registry.items.find 2 = some ⟨[99], maxCode, 0, 10, true, false, true, 0, 0, 10, 4⟩ := by
  decide

theorem lateFilePassed : ¬∀ layout w, Reachable (system layout) w → BoundarySound w := by
  intro all
  have run : AllAllowed (fun w a => True ∧ Allowed w a) (perform (appendLayout Nat Item)) start
      lateActions := by decide
  have sound := all _ _ (reachableUnder (reachableAllowed run))
  obtain ⟨yields, file⟩ := lateBoundary
  have passed := sound 20 yields
    (fun id => orderOf (lateActions.foldl (perform (appendLayout Nat Item)) start).registry.items id)
    (fun id item found => by rw [InputRegistry.orderOf, found]; exact Nat.le_refl _) 2 _ file
    (fun complete => Bool.false_ne_true complete.1)
  rw [InputRegistry.orderOf, file] at passed
  exact absurd passed (by decide)

end Dewfall.DoneBoundary
