import Dewfall.Converter.EventPipes

/-! The registry's counters as the source stores them, in 32 bits. In runs that register fewer than
2 ^ 32 files and count fewer than 2 ^ 32 chunks they are the plain numbers of the other modules. -/
namespace Dewfall.InputCounters
open General General.Transition InputRegistry
open DoneBoundary (rebuildFrame finishReadFrame advancedLe)
open ProcessorIdle (Shape)
open EventPipes (World Action Allowed Counted)

def storedItem (item : Item) : Item :=
  { item with insertedIntoTree := u32 item.insertedIntoTree, subCount := u32 item.subCount }

def stored (r : Registry) : Registry :=
  { r with
    items := r.items.mapValues storedItem
    nextInputId := u32 r.nextInputId
    inputDataWithSubParts := u32 r.inputDataWithSubParts
    inputDataInsertedToTree := u32 r.inputDataInsertedToTree
    inputDataIdDoneCount := u32 r.inputDataIdDoneCount
    donePrefixIndex := u32 r.donePrefixIndex }

variable (layout : Layout Nat Item)

-- An event raises a counter by one (the cursor stays within its list), so wrapping what is stored
-- is what the words do.
def perform (w : World) (a : Action) : World :=
  let after := EventPipes.perform layout w a
  { after with registry := stored after.registry }

def system : System World Action := System.ofFunction EventPipes.start Allowed (perform layout)

-- One more file or chunk than the counters hold is never registered or counted.
def Room (w : World) : Action → Prop
  | .registerFile _ => w.registry.nextInputId + 1 < 2 ^ 32
  | .takeSubAdded => w.registry.inputDataWithSubParts + 1 < 2 ^ 32
  | .takeTreeDone => w.registry.inputDataInsertedToTree + 1 < 2 ^ 32
  | _ => True

variable {layout}

structure Small (r : Registry) : Prop where
  files : r.nextInputId < 2 ^ 32
  added : r.inputDataWithSubParts < 2 ^ 32
  inserted : r.inputDataInsertedToTree < 2 ^ 32
  distinct : r.sortedInputSources.Nodup
  cursor : r.donePrefixIndex ≤ r.sortedInputSources.length

/-! ## Nothing is lost where a counter is stored -/

theorem idsBound {r} (shape : Shape r) {ids : List Nat} (distinct : ids.Nodup)
    (present : ∀ id ∈ ids, ∃ item, r.items.find id = some item) : ids.length ≤ r.nextInputId := by
  have inside : ids ⊆ List.range r.nextInputId := by
    intro id mem
    obtain ⟨item, found⟩ := present id mem
    exact List.mem_range.mpr (shape.fresh id item found)
  exact (distinct.subperm inside).length_le.trans_eq List.length_range

theorem entriesBound {r} (shape : Shape r) : r.items.entries.length ≤ r.nextInputId := by
  have bound := idsBound shape r.items.distinct fun id mem => by
    obtain ⟨e, here, rfl⟩ := List.mem_map.mp mem
    exact ⟨e.2, DenseMap.findMem.mpr here⟩
  rwa [List.length_map] at bound

theorem doneBound {r} (shape : Shape r) : r.inputDataIdDoneCount ≤ r.nextInputId := by
  have ones : r.items.total (fun _ => 1) = r.items.entries.length := by simp [DenseMap.total]
  have fewer := DenseMap.totalLe (m := r.items) (f := fun item => item.readFinished.toNat) (g := fun _ => 1)
    fun _ item _ => Bool.toNat_le item.readFinished
  rw [← shape.counted, ones] at fewer
  exact fewer.trans (entriesBound shape)

theorem sortedBound {r} (shape : Shape r) (distinct : r.sortedInputSources.Nodup) :
    r.sortedInputSources.length ≤ r.nextInputId := by
  refine idsBound shape distinct fun id mem => ?_
  obtain ⟨item, found, _⟩ := shape.started id mem
  exact ⟨item, found⟩

theorem storedSame {w : World} (counted : Counted w) (small : Small w.registry) : stored w.registry = w.registry := by
  have items : w.registry.items.mapValues storedItem = w.registry.items := by
    refine DenseMap.entriesExt ((List.map_congr_left fun e mem => ?_).trans (List.map_id _))
    have subs : e.2.subCount ≤ w.registry.inputDataWithSubParts := by
      rw [counted.added]
      exact DenseMap.leTotal mem Item.subCount
    have trees : e.2.insertedIntoTree ≤ w.registry.inputDataInsertedToTree := by
      rw [counted.inserted]
      exact DenseMap.leTotal mem Item.insertedIntoTree
    unfold storedItem
    rw [u32Small (subs.trans_lt small.added), u32Small (trees.trans_lt small.inserted)]
    rfl
  have done := (doneBound counted.shape).trans_lt small.files
  have cursor := (small.cursor.trans (sortedBound counted.shape small.distinct)).trans_lt small.files
  unfold stored
  rw [items, u32Small small.files, u32Small small.added, u32Small small.inserted, u32Small done, u32Small cursor]

/-! ## Steps that have room -/

-- The three sums, the dispatched files and the cursor are as before.
theorem smallFrame {r after : Registry} (small : Small r) (files : after.nextInputId = r.nextInputId)
    (added : after.inputDataWithSubParts = r.inputDataWithSubParts)
    (inserted : after.inputDataInsertedToTree = r.inputDataInsertedToTree)
    (sorted : after.sortedInputSources = r.sortedInputSources)
    (cursor : after.donePrefixIndex = r.donePrefixIndex) : Small after :=
  ⟨files ▸ small.files, added ▸ small.added, inserted ▸ small.inserted, sorted ▸ small.distinct,
    by rw [cursor, sorted]; exact small.cursor⟩

theorem finishSmall {r} (small : Small r) (id : Nat) : Small (finishRead r id) := by
  obtain ⟨files, sorted, _, _, added, inserted⟩ := ProcessorIdle.finishFrame r id
  obtain ⟨_, _, cursor, _, _⟩ := finishReadFrame r id
  exact smallFrame small files added inserted sorted cursor

theorem failedSmall {r} (small : Small r) (id : Nat) : Small (handleFileFailed r id) := by
  refine finishSmall ?_ id
  exact ⟨small.files, small.added, small.inserted, small.distinct, small.cursor⟩

theorem registerSmall {r name} (small : Small r) (room : r.nextInputId + 1 < 2 ^ 32) :
    Small (registerFile layout r name).1 := by
  unfold registerFile
  split
  · exact small
  · exact ⟨room, small.added, small.inserted, small.distinct, small.cursor⟩

theorem dispatchSmall {r id} (shape : Shape r) (small : Small r) (next : Next r id) :
    Small (nextInputToProcess r id) := by
  obtain ⟨_, sorted, files, cursor, _⟩ := rebuildFrame r
  obtain ⟨item, found, unstarted, _⟩ := ProcessorIdle.nextUnread shape next
  have counts : (rebuildUnsorted r).inputDataWithSubParts = r.inputDataWithSubParts ∧
      (rebuildUnsorted r).inputDataInsertedToTree = r.inputDataInsertedToTree := by
    unfold rebuildUnsorted
    split
    · exact ⟨rfl, rfl⟩
    · exact ⟨rfl, rfl⟩
  have absent : id ∉ r.sortedInputSources := by
    intro mem
    obtain ⟨other, there, started⟩ := shape.started id mem
    cases Option.some.inj (there.symm.trans found)
    exact absurd (started.symm.trans unstarted) (by decide)
  have longer : (nextInputToProcess r id).sortedInputSources = r.sortedInputSources ++ [id] :=
    congrArg (· ++ [id]) sorted
  refine ⟨files.trans_lt small.files, counts.1.trans_lt small.added, counts.2.trans_lt small.inserted, ?_, ?_⟩
  · rw [longer]
    exact small.distinct.append (List.nodup_singleton id) (by simpa using absent)
  · rw [longer, List.length_append]
    exact (cursor.trans_le small.cursor).trans (Nat.le_add_right _ _)

theorem askSmall {r} (small : Small r) : Small (getDoneMorton r).1 := by
  have limit := advancedLe r.items small.cursor
  unfold getDoneMorton
  dsimp only
  repeat' split
  · exact small
  all_goals exact ⟨small.files, small.added, small.inserted, small.distinct, limit⟩

theorem performSmall {w : World} {a} (counted : Counted w) (small : Small w.registry) (allowed : Allowed w a)
    (room : Room w a) : Small (EventPipes.perform layout w a).registry := by
  cases a with
  | registerFile name => exact registerSmall small room
  | preInit id order count size => exact smallFrame small rfl rfl rfl rfl rfl
  | preInitFailed id => exact failedSmall small id
  | dispatch id => exact dispatchSmall counted.shape small allowed
  | beginRead id => exact small
  | readChunk id => exact small
  | endRead id => exact small
  | sortChunk id min max => exact small
  | closeFile id => exact small
  | insertChunk id => exact small
  | takeSubAdded =>
    show Small (EventPipes.takeSubAdded w).registry
    unfold EventPipes.takeSubAdded
    split
    · exact small
    · exact ⟨small.files, room, small.inserted, small.distinct, small.cursor⟩
  | takeSorted =>
    show Small (EventPipes.takeSorted w).registry
    unfold EventPipes.takeSorted
    split
    · exact small
    · exact smallFrame small rfl rfl rfl rfl rfl
  | takeReadingDone =>
    show Small (EventPipes.takeReadingDone w).registry
    unfold EventPipes.takeReadingDone
    split
    · exact small
    · exact finishSmall small _
  | takeTreeDone =>
    show Small (EventPipes.takeTreeDone w).registry
    unfold EventPipes.takeTreeDone
    split
    · exact small
    · exact ⟨small.files, small.added, room, small.distinct, small.cursor⟩
  | askDoneMorton => exact askSmall small

/-! ## Runs -/

theorem stepSame {w : World} {a after} (counted : Counted w) (small : Small w.registry) :
    ((system layout).under Room).step w a after ↔ ((EventPipes.system layout).under Room).step w a after := by
  refine and_congr_right fun room => and_congr_right fun allowed => ?_
  have same : stored (EventPipes.perform layout w a).registry = (EventPipes.perform layout w a).registry :=
    storedSame (EventPipes.performCounted counted allowed) (performSmall counted small allowed room)
  unfold perform
  dsimp only
  rw [same]

theorem countedSmall : Inductive ((EventPipes.system layout).under Room) fun w => Counted w ∧ Small w.registry := by
  constructor
  · rintro w rfl
    exact ⟨EventPipes.startCounted, by decide, by decide, by decide, List.nodup_nil, Nat.le_refl 0⟩
  · rintro w a after ⟨counted, small⟩ ⟨room, allowed, rfl⟩
    exact ⟨EventPipes.performCounted counted allowed, performSmall counted small allowed room⟩

theorem wordsSmall : Inductive ((system layout).under Room) fun w => Counted w ∧ Small w.registry := by
  have same := @countedSmall layout
  exact ⟨same.initial, fun w a after inv step => same.step w a after inv ((stepSame inv.1 inv.2).mp step)⟩

-- With room for every count the machine's registry and the model's go through the same states.
theorem countersSame {w : World} : Reachable ((system layout).under Room) w ↔
    Reachable ((EventPipes.system layout).under Room) w :=
  ⟨reachableInto countedSmall (fun _ initial => initial) fun _ _ _ inv step => (stepSame inv.1 inv.2).mp step,
    reachableInto wordsSmall (fun _ initial => initial) fun _ _ _ inv step => (stepSame inv.1 inv.2).mpr step⟩

end Dewfall.InputCounters
