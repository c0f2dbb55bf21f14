import Dewfall.Converter.DoneBoundary
import Dewfall.Converter.Processor

/-! When the processor goes idle, over whole runs. Every event that calls `maybe_start_lod` leaves
no boundary behind; the proofs are about the events that do not. Runs start from a fresh
conversion; whether a started pass ends is not treated. -/
namespace Dewfall.ProcessorIdle
open General General.Transition InputRegistry Processor
open DoneBoundary (Changed modifyItemChanged finishReadChanged changedFind changedKeep rebuildFrame
  advancedDrop clampLe)

def system (layout : Layout Nat Item) : System World Action :=
  System.ofFunction start Allowed (perform layout)

def retired (refs : List Nat) (answers : List Answer) : List Nat :=
  ((refs.zip answers).filter fun result => result.2 = .failure).map Prod.fst ++
    refs.filter fun id => id ∉ settledIds (refs.zip answers)

def Unread (r : Registry) (id : Nat) : Prop := ∃ item ∈ r.items.find id, item.readFinished = false

instance (r id) : Decidable (Unread r id) := by unfold Unread; infer_instance

-- The batch was not answered at all, or it does not retire the last blocking file.
def SettleSound (w : World) (refs : List Nat) (answers : List Answer) : Prop :=
  settledIds (refs.zip answers) = [] ∨ w.generatingLod = true ∨
    (∃ id ∈ w.registry.items.entries.map Prod.fst, Unread w.registry id ∧ id ∉ retired refs answers) ∨
    w.registry.inputDataInsertedToTree < w.registry.inputDataWithSubParts ∨
    w.registry.sortedInputSources = [] ∨
    (maxCode ≤ w.lodDoneMorton ∧ (w.isMutable = false ∨ batchFloor (refs.zip answers) = none))

instance (w refs answers) : Decidable (SettleSound w refs answers) := by
  unfold SettleSound; infer_instance

def StepSound (w : World) : Action → Prop
  | .preInitDone batch answers => ∀ refs ∈ w.batches[batch]?, SettleSound w refs answers
  | _ => True

instance (w a) : Decidable (StepSound w a) := by
  apply Processor.Action.casesOn (motive := fun a => Decidable (StepSound w a)) a
  all_goals
    intros
    dsimp only [StepSound]
    infer_instance

def IdleSound (w : World) : Prop :=
  ∀ picked blocked, dispatchInputs w picked = some blocked → settlesIdle blocked = true →
    ∀ boundary, (getDoneMorton blocked.registry).2 = some boundary → boundary ≤ blocked.lodDoneMorton

/-! ## The registry's own invariant -/

structure Shape (r : Registry) : Prop where
  fresh : ∀ id item, r.items.find id = some item → id < r.nextInputId
  started : ∀ id ∈ r.sortedInputSources, ∃ item ∈ r.items.find id, item.readStarted = true
  read : ∀ id item, r.items.find id = some item → item.readFinished = true → item.readStarted = true
  waiting : r.unsortedInputSourcesDirty = false → r.unsortedInputSources.Nodup ∧
    ∀ id ∈ r.unsortedInputSources, ∃ item ∈ r.items.find id, item.readStarted = false
  codes : ∀ id item, r.items.find id = some item → item.mortonMin ≤ maxCode
  counted : r.inputDataIdDoneCount = r.items.total fun item => item.readFinished.toNat

theorem emptyShape : Shape empty := by
  constructor
  · intro id item found
    contradiction
  · intro id mem
    simp [empty] at mem
  · intro id item found
    contradiction
  · intro clean
    contradiction
  · intro id item found
    contradiction
  · rfl

-- Short of files or of chunks: a chunk counted later does not make up for either.
def Short (r : Registry) : Prop :=
  r.items.entries.length ≠ r.inputDataIdDoneCount ∨ r.inputDataInsertedToTree < r.inputDataWithSubParts

theorem shortOpen {r} (short : Short r) : allInsertedIntoTree r = false := by
  unfold allInsertedIntoTree
  rcases short with fewer | behind
  · simp [fewer]
  · simp [Nat.ne_of_gt behind]

theorem unreadShort {r id} (shape : Shape r) (unread : Unread r id) : Short r := by
  obtain ⟨item, found, unread⟩ := unread
  refine Or.inl fun all => ?_
  have ones : r.items.total (fun _ => 1) = r.items.entries.length := by simp [DenseMap.total]
  have every := DenseMap.totalSame (m := r.items) (f := fun item => item.readFinished.toNat)
    (g := fun _ => 1) (fun _ item _ => Bool.toNat_le item.readFinished)
    (by rw [ones, ← shape.counted, all]) id item found
  rw [unread] at every
  contradiction

theorem localShape {r after : Registry} {id f} (shape : Shape r)
    (changed : Changed r.items after.items id f)
    (next : after.nextInputId = r.nextInputId) (sorted : after.sortedInputSources = r.sortedInputSources)
    (starts : ∀ item, item.readStarted = true → (f item).readStarted = true)
    (reads : ∀ item, r.items.find id = some item → (f item).readFinished = true →
      (f item).readStarted = true)
    (codes : ∀ item, item.mortonMin ≤ maxCode → (f item).mortonMin ≤ maxCode)
    (waits : after.unsortedInputSourcesDirty = false → r.unsortedInputSourcesDirty = false ∧
      after.unsortedInputSources = r.unsortedInputSources ∧
      ∀ item, item.readStarted = false → (f item).readStarted = false)
    (counted : after.inputDataIdDoneCount = after.items.total fun item => item.readFinished.toNat) :
    Shape after := by
  constructor
  · intro k item found
    obtain ⟨old, there, _⟩ := changedFind changed found
    rw [next]
    exact shape.fresh k old there
  · intro k mem
    rw [sorted] at mem
    obtain ⟨old, there, started⟩ := shape.started k mem
    refine ⟨_, changedKeep changed there, ?_⟩
    split
    · exact starts old started
    · exact started
  · intro k item found finished
    obtain ⟨old, there, rfl⟩ := changedFind changed found
    by_cases same : k = id
    · subst same
      rw [if_pos rfl] at finished ⊢
      exact reads old there finished
    · rw [if_neg same] at finished ⊢
      exact shape.read k old there finished
  · intro clean
    obtain ⟨before, unsorted, waits⟩ := waits clean
    obtain ⟨distinct, free⟩ := shape.waiting before
    rw [unsorted]
    refine ⟨distinct, fun k mem => ?_⟩
    obtain ⟨old, there, free⟩ := free k mem
    refine ⟨_, changedKeep changed there, ?_⟩
    split
    · exact waits old free
    · exact free
  · intro k item found
    obtain ⟨old, there, rfl⟩ := changedFind changed found
    split
    · exact codes old (shape.codes k old there)
    · exact shape.codes k old there
  · exact counted

theorem modifyTotal (items : DenseMap Nat Item) (id : Nat) (f : Item → Item)
    (keeps : ∀ item, (f item).readFinished = item.readFinished) :
    (modifyItem items id f).total (fun item => item.readFinished.toNat) =
      items.total fun item => item.readFinished.toNat := by
  unfold modifyItem
  split
  · rfl
  · rename_i item found
    have step := DenseMap.totalAssign found (f item) fun item => item.readFinished.toNat
    rw [keeps item] at step
    exact Nat.add_right_cancel step

theorem modifyShape {r after : Registry} {id} {f : Item → Item} (shape : Shape r)
    (items : after.items = modifyItem r.items id f)
    (next : after.nextInputId = r.nextInputId) (sorted : after.sortedInputSources = r.sortedInputSources)
    (count : after.inputDataIdDoneCount = r.inputDataIdDoneCount)
    (keeps : ∀ item, (f item).readFinished = item.readFinished)
    (starts : ∀ item, item.readStarted = true → (f item).readStarted = true)
    (codes : ∀ item, item.mortonMin ≤ maxCode → (f item).mortonMin ≤ maxCode)
    (waits : after.unsortedInputSourcesDirty = false → r.unsortedInputSourcesDirty = false ∧
      after.unsortedInputSources = r.unsortedInputSources ∧
      ∀ item, item.readStarted = false → (f item).readStarted = false) : Shape after := by
  refine localShape shape (items ▸ modifyItemChanged r.items id f) next sorted starts ?_ codes waits ?_
  · intro item found finished
    rw [keeps] at finished
    exact starts item (shape.read id item found finished)
  · rw [count, shape.counted, items, modifyTotal r.items id f keeps]

theorem finishFrame (r : Registry) (id : Nat) :
    (finishRead r id).nextInputId = r.nextInputId ∧
      (finishRead r id).sortedInputSources = r.sortedInputSources ∧
      (finishRead r id).unsortedInputSourcesDirty = r.unsortedInputSourcesDirty ∧
      (finishRead r id).unsortedInputSources = r.unsortedInputSources ∧
      (finishRead r id).inputDataWithSubParts = r.inputDataWithSubParts ∧
      (finishRead r id).inputDataInsertedToTree = r.inputDataInsertedToTree := by
  unfold finishRead
  repeat' split
  all_goals exact ⟨rfl,rfl,rfl,rfl,rfl,rfl⟩

theorem finishCounted {r id} (counted : r.inputDataIdDoneCount =
      r.items.total fun item => item.readFinished.toNat) :
    (finishRead r id).inputDataIdDoneCount =
      (finishRead r id).items.total fun item => item.readFinished.toNat := by
  unfold finishRead
  split
  · exact counted
  · rename_i item found
    split
    · exact counted
    · rename_i unread
      have step := DenseMap.totalAssign found { item with readFinished := true }
        fun item => item.readFinished.toNat
      simp only [unread, Bool.toNat_false, Bool.toNat_true] at step
      simp only [counted, ← step, Nat.add_zero]

theorem finishShape {r id} (shape : Shape r)
    (started : ∀ item, r.items.find id = some item → item.readStarted = true) :
    Shape (finishRead r id) := by
  obtain ⟨next, sorted, dirty, unsorted, _⟩ := finishFrame r id
  refine localShape shape (finishReadChanged r id) next sorted (fun _ h => h)
    (fun item found _ => started item found) (fun _ h => h) ?_ (finishCounted shape.counted)
  exact fun clean => ⟨dirty ▸ clean, unsorted, fun _ h => h⟩

/-! ## Settling a batch -/

structure Retires (ids : List Nat) (r after : Registry) : Prop where
  shape : Shape r → Shape after
  sorted : after.sortedInputSources = r.sortedInputSources
  withSub : after.inputDataWithSubParts = r.inputDataWithSubParts
  inserted : after.inputDataInsertedToTree = r.inputDataInsertedToTree
  unread : ∀ id, id ∉ ids → Unread r id → Unread after id

theorem retiresNothing (ids : List Nat) (r : Registry) : Retires ids r r :=
  ⟨fun h => h,rfl,rfl,rfl,fun _ _ h => h⟩

theorem retiresTrans {ids r middle after} (one : Retires ids r middle) (two : Retires ids middle after) :
    Retires ids r after :=
  ⟨fun h => two.shape (one.shape h), two.sorted.trans one.sorted, two.withSub.trans one.withSub,
    two.inserted.trans one.inserted, fun id away h => two.unread id away (one.unread id away h)⟩

theorem unreadChanged {r after : Registry} {id f k} (changed : Changed r.items after.items id f)
    (keeps : k = id → ∀ item, (f item).readFinished = item.readFinished) (unread : Unread r k) :
    Unread after k := by
  obtain ⟨item, found, unread⟩ := unread
  refine ⟨_, changedKeep changed found, ?_⟩
  split
  · rename_i same
    rw [keeps same item, unread]
  · exact unread

theorem preInitRetires (ids : List Nat) (r : Registry) (id : Nat) (order : Option Nat) (count size : Nat) :
    Retires ids r (registerPreInitResult r id order count size) := by
  refine ⟨fun shape => ?_, rfl, rfl, rfl, fun k _ unread => ?_⟩
  · exact modifyShape shape rfl rfl rfl rfl (fun _ => rfl) (fun _ h => h) (fun _ h => h)
      (fun clean => absurd clean (by simp [registerPreInitResult]))
  · exact unreadChanged (modifyItemChanged _ _ _) (fun _ _ => rfl) unread

theorem failedRetires {ids id} (mem : id ∈ ids) (r : Registry) :
    Retires ids r (handleFileFailed r id) := by
  let marked := { r with
    items := modifyItem r.items id fun item => { item with preInitSettled := true, readStarted := true }
    unsortedInputSourcesDirty := true }
  have changed : Changed r.items marked.items id _ := modifyItemChanged r.items id _
  obtain ⟨_, sorted, _, _, withSub, inserted⟩ := finishFrame marked id
  refine ⟨fun shape => ?_, sorted, withSub, inserted, fun k away unread => ?_⟩
  · have shape : Shape marked := modifyShape shape rfl rfl rfl rfl (fun _ => rfl) (fun _ _ => rfl)
      (fun _ h => h) (fun clean => absurd clean (by simp [marked]))
    refine finishShape shape fun item found => ?_
    obtain ⟨old, _, rfl⟩ := changedFind changed found
    rw [if_pos rfl]
  · have other : k ≠ id := fun same => away (same ▸ mem)
    have kept := unreadChanged changed (fun same => absurd same other) unread
    exact unreadChanged (finishReadChanged marked id) (fun same => absurd same other) kept

theorem answersRetire {ids : List Nat} {results : List (Nat × Answer)}
    (failed : ∀ result ∈ results, result.2 = .failure → result.1 ∈ ids) (r : Registry) :
    Retires ids r (results.foldl applyAnswer r) := by
  induction results generalizing r with
  | nil => exact retiresNothing ids r
  | cons result rest ih =>
    refine retiresTrans ?_ (ih (fun other mem => failed other (List.mem_cons_of_mem _ mem)) _)
    obtain ⟨id, answer⟩ := result
    cases answer with
    | success order count size => exact preInitRetires ids r id order count size
    | failure => exact failedRetires (failed (id, .failure) List.mem_cons_self rfl) r
    | unanswered => exact retiresNothing ids r

theorem sweepRetires {ids refs settled : List Nat} (swept : ∀ id ∈ refs, id ∉ settled → id ∈ ids)
    (r : Registry) : Retires ids r (sweepUnsettled r refs settled) := by
  unfold sweepUnsettled
  induction refs generalizing r with
  | nil => exact retiresNothing ids r
  | cons id rest ih =>
    refine retiresTrans ?_ (ih (fun other mem => swept other (List.mem_cons_of_mem _ mem)) _)
    dsimp only
    split
    · exact retiresNothing ids r
    · rename_i away
      exact failedRetires (swept id List.mem_cons_self away) r

theorem settleRetires (r : Registry) (refs : List Nat) (answers : List Answer) :
    Retires (retired refs answers) r (sweepUnsettled ((refs.zip answers).foldl applyAnswer r) refs
      (settledIds (refs.zip answers))) := by
  refine retiresTrans (answersRetire ?_ r) (sweepRetires ?_ _)
  · intro result mem failed
    refine List.mem_append_left _ (List.mem_map.mpr ⟨result, List.mem_filter.mpr ⟨mem, ?_⟩, rfl⟩)
    exact decide_eq_true failed
  · intro id mem away
    exact List.mem_append_right _ (List.mem_filter.mpr ⟨mem, decide_eq_true away⟩)

/-! ## Asking for the boundary -/

theorem askFrame (r : Registry) : (getDoneMorton r).1 = { r with
    donePrefixIndex := (getDoneMorton r).1.donePrefixIndex } := by
  unfold getDoneMorton
  dsimp only
  repeat' split
  all_goals rfl

theorem advancedAgain (items : DenseMap Nat Item) (sorted : List Nat) (index : Nat) :
    advancePrefix items sorted (advancePrefix items sorted index) = advancePrefix items sorted index := by
  have stuck : (sorted.drop (advancePrefix items sorted index)).takeWhile (doneId items) = [] := by
    rw [advancedDrop]
    cases tail : (sorted.drop index).dropWhile (doneId items) with
    | nil => rfl
    | cons next rest =>
      have head := List.head?_dropWhile_not (doneId items) (sorted.drop index)
      rw [tail] at head
      exact List.takeWhile_cons_of_neg (by simpa using head)
  rw [advancePrefix, stuck]
  rfl

theorem yieldsIff {r : Registry} {boundary} : (getDoneMorton r).2 = some boundary ↔
    r.sortedInputSources ≠ [] ∧ advancePrefix r.items r.sortedInputSources r.donePrefixIndex ≠ 0 ∧
      0 < boundary ∧ clampUndispatched r.items.entries (firstUnfinished r.items r.sortedInputSources
        (advancePrefix r.items r.sortedInputSources r.donePrefixIndex)) = boundary := by
  unfold getDoneMorton
  dsimp only
  split
  · simp [*]
  split
  · simp [*]
  split
  · rename_i positive
    simp only [*, Option.some.injEq, ne_eq, not_false_eq_true, true_and]
    constructor
    · intro same
      exact ⟨same ▸ positive, same⟩
    · exact fun both => both.2
  · rename_i zero
    simp only [*, ne_eq, not_false_eq_true, true_and, reduceCtorEq, false_iff, not_and]
    intro positive same
    exact zero (same ▸ positive)

theorem askCursor {r : Registry} (some : r.sortedInputSources ≠ []) :
    (getDoneMorton r).1.donePrefixIndex =
      advancePrefix r.items r.sortedInputSources r.donePrefixIndex := by
  unfold getDoneMorton
  dsimp only
  rw [if_neg some]
  repeat' split
  all_goals rfl

theorem askAgain (r : Registry) : (getDoneMorton (getDoneMorton r).1).2 = (getDoneMorton r).2 := by
  refine Option.ext fun boundary => ?_
  rw [yieldsIff, yieldsIff]
  by_cases none : r.sortedInputSources = []
  · rw [askFrame]
    simp [none]
  · have cursor := askCursor none
    rw [askFrame, cursor]
    dsimp only
    rw [advancedAgain]

theorem boundaryLe {r boundary} (shape : Shape r) (yields : (getDoneMorton r).2 = some boundary) :
    boundary ≤ maxCode := by
  obtain ⟨_, _, _, rfl⟩ := yieldsIff.mp yields
  refine Nat.le_trans (clampLe _ _).1 ?_
  unfold firstUnfinished
  split
  · exact Nat.le_refl _
  · rename_i next here
    obtain ⟨id, _, found⟩ := Option.bind_eq_some_iff.mp here
    have code := shape.codes id next found
    split
    · exact code
    · rename_i larger
      exact Nat.le_trans (Nat.le_of_not_lt larger) code

theorem leClamp {entries : List (Nat × Item)} {low boundary : Nat} (whole : low ≤ boundary)
    (each : ∀ e ∈ entries, e.2.readStarted = false → low ≤ e.2.inputOrder) :
    low ≤ clampUndispatched entries boundary := by
  induction entries generalizing boundary with
  | nil => exact whole
  | cons e rest ih =>
    refine ih ?_ fun f mem => each f (List.mem_cons_of_mem _ mem)
    dsimp only
    split
    · rename_i undispatched
      simp only [Bool.and_eq_true, Bool.not_eq_true'] at undispatched
      exact each e List.mem_cons_self undispatched.1
    · exact whole

def widen (min max : Nat) (item : Item) : Item :=
  { item with
    mortonMin := if min < item.mortonMin then min else item.mortonMin
    mortonMax := if item.mortonMax < max then max else item.mortonMax }

theorem sortedChanged (r : Registry) (id min max : Nat) :
    Changed r.items (handleSortedPoints r id min max).items id (widen min max) :=
  modifyItemChanged r.items id (widen min max)

theorem widenDone {before after : DenseMap Nat Item} {id min max}
    (changed : Changed before after id (widen min max)) : doneId after = doneId before := by
  funext k
  unfold doneId
  rw [changed k]
  split
  · rename_i same
    rw [same]
    cases before.find id with
    | none => rfl
    | some item => rfl
  · rfl

theorem lesserMono {a b c : Nat} (le : a ≤ b) :
    (if a < c then a else c) ≤ if b < c then b else c := by
  split
  · split
    · exact le
    · omega
  · split
    · omega
    · exact Nat.le_refl c

theorem firstLe {before after : DenseMap Nat Item} {id f} (changed : Changed before after id f)
    (order : ∀ item, (f item).inputOrder = item.inputOrder) (lower : ∀ item, (f item).mortonMin ≤ item.mortonMin)
    (sorted : List Nat) (index : Nat) : firstUnfinished after sorted index ≤ firstUnfinished before sorted index := by
  unfold firstUnfinished
  cases sorted[index]? with
  | none => exact Nat.le_refl _
  | some next =>
    rw [Option.bind_some, Option.bind_some, changed next]
    by_cases same : next = id
    · rw [if_pos same, same]
      cases before.find id with
      | none => exact Nat.le_refl _
      | some item =>
        change (if (f item).mortonMin < (f item).inputOrder then _ else _) ≤ _
        rw [order]
        exact lesserMono (lower item)
    · rw [if_neg same]

-- An event of one file that moves no cursor and only lowers the file's minimum.
theorem changedLe {r after : Registry} {id f boundary} (changed : Changed r.items after.items id f)
    (started : ∀ item, (f item).readStarted = item.readStarted)
    (order : ∀ item, (f item).inputOrder = item.inputOrder) (lower : ∀ item, (f item).mortonMin ≤ item.mortonMin)
    (sorted : after.sortedInputSources = r.sortedInputSources)
    (cursor : advancePrefix after.items r.sortedInputSources after.donePrefixIndex =
      advancePrefix r.items r.sortedInputSources r.donePrefixIndex)
    (yields : (getDoneMorton after).2 = some boundary) :
    ∃ earlier, (getDoneMorton r).2 = some earlier ∧ boundary ≤ earlier := by
  obtain ⟨some, first, positive, frontier⟩ := yieldsIff.mp yields
  rw [sorted] at some
  rw [sorted, cursor] at first frontier
  have later : boundary ≤ clampUndispatched r.items.entries (firstUnfinished r.items
      r.sortedInputSources (advancePrefix r.items r.sortedInputSources r.donePrefixIndex)) := by
    rw [← frontier]
    obtain ⟨whole, each⟩ := clampLe after.items.entries (firstUnfinished after.items r.sortedInputSources
      (advancePrefix r.items r.sortedInputSources r.donePrefixIndex))
    refine leClamp (Nat.le_trans whole (firstLe changed order lower _ _)) fun e mem idle => ?_
    have kept := changedKeep changed (DenseMap.findMem.mpr mem : r.items.find e.1 = .some e.2)
    split at kept
    · exact order e.2 ▸ each (e.1, f e.2) (DenseMap.findMem.mp kept) ((started e.2).trans idle)
    · exact each e (DenseMap.findMem.mp kept) idle
  exact ⟨_, yieldsIff.mpr ⟨some, first, Nat.lt_of_lt_of_le positive later, rfl⟩, later⟩

theorem sortedCursor (r : Registry) (id min max : Nat) :
    advancePrefix (handleSortedPoints r id min max).items = advancePrefix r.items := by
  funext sorted index
  rw [advancePrefix, advancePrefix, widenDone (sortedChanged r id min max)]

-- Sorted chunks only lower a file's accumulated minimum.
theorem sortedLe {r : Registry} {id min max boundary}
    (yields : (getDoneMorton (handleSortedPoints r id min max)).2 = some boundary) :
    ∃ earlier, (getDoneMorton r).2 = some earlier ∧ boundary ≤ earlier := by
  refine changedLe (sortedChanged r id min max) (fun _ => rfl) (fun _ => rfl) (fun item => ?_) rfl
    (congrFun (congrFun (sortedCursor r id min max) _) _) yields
  unfold widen
  dsimp only
  split
  · omega
  · exact Nat.le_refl _

/-! ## A cursor at rest -/

-- Every file that is done has been passed.
def Resting (r : Registry) : Prop :=
  r.sortedInputSources = [] ∨ advancePrefix r.items r.sortedInputSources r.donePrefixIndex = r.donePrefixIndex

theorem askResting (r : Registry) : Resting (getDoneMorton r).1 := by
  by_cases none : r.sortedInputSources = []
  · refine Or.inl ?_
    rw [askFrame]
    exact none
  · have cursor := askCursor none
    refine Or.inr ?_
    rw [askFrame, cursor]
    dsimp only
    rw [advancedAgain]

def counted (item : Item) : Item := { item with subCount := item.subCount + 1 }

theorem subChanged (r : Registry) (id : Nat) : Changed r.items (handleSubAdded r id).items id counted :=
  modifyItemChanged r.items id counted

theorem subUndone {r : Registry} {id k : Nat} (done : doneId (handleSubAdded r id).items k = true) :
    doneId r.items k = true := by
  unfold doneId at *
  rw [subChanged r id k] at done
  split at done
  · rename_i same
    rw [same]
    cases found : r.items.find id with
    | none => rw [found] at done; exact done
    | some item =>
      rw [found] at done
      simp only [Option.map_some, Option.getD_some, counted, Item.done, Bool.and_eq_true, decide_eq_true_eq] at done ⊢
      exact ⟨done.1, by omega⟩
  · exact done

-- A file that is not done is not done either with one more chunk to come.
theorem subCursor {r : Registry} {id : Nat}
    (rests : advancePrefix r.items r.sortedInputSources r.donePrefixIndex = r.donePrefixIndex) :
    advancePrefix (handleSubAdded r id).items r.sortedInputSources r.donePrefixIndex = r.donePrefixIndex := by
  unfold advancePrefix at *
  have none : (r.sortedInputSources.drop r.donePrefixIndex).takeWhile (doneId r.items) = [] :=
    List.eq_nil_of_length_eq_zero (by omega)
  have still : (r.sortedInputSources.drop r.donePrefixIndex).takeWhile (doneId (handleSubAdded r id).items) = [] := by
    rw [List.takeWhile_eq_nil_iff] at none ⊢
    exact fun inside done => none inside (subUndone done)
  rw [still]
  rfl

/-! ## No boundary left behind -/

structure NothingLeft (w : World) : Prop where
  rests : maxCode ≤ w.lodDoneMorton ∨ Resting w.registry
  behind : ∀ boundary, (getDoneMorton w.registry).2 = some boundary → boundary ≤ w.lodDoneMorton

def Covered (w : World) : Prop :=
  w.generatingLod = true ∨ Short w.registry ∨ NothingLeft w

theorem maybeStartCovered (w : World) : Covered (maybeStartLod w) := by
  unfold maybeStartLod
  split
  · exact Or.inl ‹_›
  dsimp only
  split
  · rename_i none
    refine Or.inr (Or.inr ⟨Or.inr (askResting w.registry), fun boundary yields => ?_⟩)
    rw [askAgain, none] at yields
    contradiction
  · rename_i doneMorton yields
    split
    · exact Or.inl rfl
    · rename_i behind
      refine Or.inr (Or.inr ⟨Or.inr (askResting w.registry), fun boundary again => ?_⟩)
      rw [askAgain, yields] at again
      cases Option.some.inj again
      exact Nat.le_of_not_lt behind

theorem askShape {r} (shape : Shape r) : Shape (getDoneMorton r).1 := by
  rw [askFrame]
  exact ⟨shape.fresh,shape.started,shape.read,shape.waiting,shape.codes,shape.counted⟩

theorem maybeStartShape {w : World} (shape : Shape w.registry) : Shape (maybeStartLod w).registry := by
  unfold maybeStartLod
  split
  · exact shape
  dsimp only
  split
  · exact askShape shape
  · split
    · exact askShape shape
    · exact askShape shape

theorem quietCovered {w after : World} (covered : Covered w)
    (generating : after.generatingLod = w.generatingLod)
    (short : Short w.registry → Short after.registry) (rests : Resting w.registry → Resting after.registry)
    (lod : after.lodDoneMorton = w.lodDoneMorton)
    (boundary : ∀ b, (getDoneMorton after.registry).2 = some b →
      ∃ earlier, (getDoneMorton w.registry).2 = some earlier ∧ b ≤ earlier) : Covered after := by
  rcases covered with running | some | nothing
  · exact Or.inl (generating.trans running)
  · exact Or.inr (Or.inl (short some))
  · refine Or.inr (Or.inr ⟨lod ▸ nothing.rests.imp_right rests, fun b yields => ?_⟩)
    obtain ⟨earlier, before, le⟩ := boundary b yields
    rw [lod]
    exact Nat.le_trans le (nothing.behind earlier before)

/-! ## Registration and dispatch -/

variable {layout : Layout Nat Item}

theorem registerShape {r name} (shape : Shape r) :
    Shape (registerFile layout r name).1 ∧
      ((registerFile layout r name).1 = r ∨ Unread (registerFile layout r name).1 r.nextInputId) ∧
      ∀ id, Unread r id → Unread (registerFile layout r name).1 id := by
  unfold registerFile
  split
  · exact ⟨shape,Or.inl rfl,fun _ h => h⟩
  have absent : r.items.find r.nextInputId = none := by
    cases found : r.items.find r.nextInputId with
    | none => rfl
    | some item => exact absurd (shape.fresh _ item found) (Nat.lt_irrefl _)
  have added := @DenseMap.findEmplace _ _ _ layout _ _ absent (freshItem name)
  have kept : ∀ id item, r.items.find id = some item →
      (r.items.emplace layout r.nextInputId (freshItem name)).find id = some item := by
    intro id item found
    have old : id ≠ r.nextInputId := by
      rintro rfl
      exact absurd (absent.symm.trans found) (by simp)
    rw [added, if_neg old, found]
  have back : ∀ id item,
      (r.items.emplace layout r.nextInputId (freshItem name)).find id = some item →
      id = r.nextInputId ∧ item = freshItem name ∨ r.items.find id = some item := by
    intro id item found
    rw [added] at found
    split at found
    · exact Or.inl ⟨by assumption, (Option.some.inj found).symm⟩
    · exact Or.inr found
  refine ⟨?_, Or.inr ⟨freshItem name, by rw [added, if_pos rfl]; rfl, rfl⟩, ?_⟩
  · constructor
    · intro id item found
      rcases back id item found with ⟨rfl, _⟩ | there
      · exact Nat.lt_succ_self _
      · exact Nat.lt_succ_of_lt (shape.fresh id item there)
    · intro id mem
      obtain ⟨item, found, started⟩ := shape.started id mem
      exact ⟨item, kept id item found, started⟩
    · intro id item found finished
      rcases back id item found with ⟨_, rfl⟩ | there
      · exact absurd finished (by simp [freshItem])
      · exact shape.read id item there finished
    · intro clean
      obtain ⟨distinct, free⟩ := shape.waiting clean
      refine ⟨distinct, fun id mem => ?_⟩
      obtain ⟨item, found, free⟩ := free id mem
      exact ⟨item, kept id item found, free⟩
    · intro id item found
      rcases back id item found with ⟨_, rfl⟩ | there
      · exact Nat.le_refl _
      · exact shape.codes id item there
    · dsimp only
      rw [DenseMap.totalEmplace absent, shape.counted]
      simp [freshItem]
  · rintro id ⟨item, found, unread⟩
    exact ⟨item, kept id item found, unread⟩

theorem registerFilesShape {names : List Name} {r} (shape : Shape r) :
    Shape (registerFiles layout r names).1 ∧
      ((registerFiles layout r names).1 = r ∨ ∃ id, Unread (registerFiles layout r names).1 id) ∧
      ∀ id, Unread r id → Unread (registerFiles layout r names).1 id := by
  induction names generalizing r with
  | nil => exact ⟨shape,Or.inl rfl,fun _ h => h⟩
  | cons name rest ih =>
    obtain ⟨registered, either, kept⟩ := @registerShape layout r name shape
    obtain ⟨shape', either', kept'⟩ := ih registered
    refine ⟨shape', ?_, fun id unread => kept' id (kept id unread)⟩
    rcases either with same | unread
    · rw [same] at either'
      simp only [registerFiles, same]
      exact either'
    · exact Or.inr ⟨_, kept' _ unread⟩

theorem rebuildShape {r} (shape : Shape r) : Shape (rebuildUnsorted r) := by
  unfold rebuildUnsorted
  split
  · refine ⟨shape.fresh, shape.started, shape.read, fun _ => ⟨?_, fun id mem => ?_⟩, shape.codes,
      shape.counted⟩
    · exact r.items.distinct.sublist (List.filter_sublist.map _)
    · obtain ⟨⟨key, item⟩, entry, rfl⟩ := List.mem_map.mp mem
      obtain ⟨entry, free⟩ := List.mem_filter.mp entry
      simp only [Bool.and_eq_true, Bool.not_eq_true'] at free
      exact ⟨item, DenseMap.findMem.mpr entry, free.1⟩
  · exact shape

theorem nextUnread {r id} (shape : Shape r) (next : Next r id) :
    ∃ item ∈ r.items.find id, item.readStarted = false ∧ item.readFinished = false := by
  obtain ⟨items, _, _, _, clean⟩ := rebuildFrame r
  obtain ⟨_, free⟩ := (rebuildShape shape).waiting clean
  obtain ⟨item, found, free⟩ := free id next.1
  rw [items] at found
  refine ⟨item, found, free, ?_⟩
  rw [← Bool.not_eq_true]
  intro finished
  exact absurd (free.symm.trans (shape.read id item found finished)) Bool.false_ne_true

theorem dispatchShape {r id} (shape : Shape r) (next : Next r id) :
    Shape (nextInputToProcess r id) ∧ Unread (nextInputToProcess r id) id := by
  obtain ⟨items, sorted, counter, _, clean⟩ := rebuildFrame r
  obtain ⟨distinct, free⟩ := (rebuildShape shape).waiting clean
  obtain ⟨item, found, _, unread⟩ := nextUnread shape next
  have rebuilt := rebuildShape shape
  have changed : Changed (rebuildUnsorted r).items (nextInputToProcess r id).items id
      fun item => { item with readStarted := true } := modifyItemChanged _ id _
  refine ⟨?_, unreadChanged changed (fun _ _ => rfl) ⟨item, items ▸ found, unread⟩⟩
  constructor
  · intro k item found
    obtain ⟨old, there, _⟩ := changedFind changed found
    exact rebuilt.fresh k old there
  · intro k mem
    rcases List.mem_append.mp mem with earlier | last
    · obtain ⟨item, found, started⟩ := rebuilt.started k earlier
      refine ⟨_, changedKeep changed found, ?_⟩
      split
      · rfl
      · exact started
    · rw [List.mem_singleton.mp last]
      exact ⟨_, changedKeep changed (items ▸ found), by rw [if_pos rfl]⟩
  · intro k item found finished
    obtain ⟨old, there, rfl⟩ := changedFind changed found
    by_cases same : k = id
    · rw [if_pos same]
    · rw [if_neg same] at finished ⊢
      exact rebuilt.read k old there finished
  · intro _
    refine ⟨distinct.erase id, fun k mem => ?_⟩
    obtain ⟨other, waiting⟩ := distinct.mem_erase_iff.mp mem
    obtain ⟨item, found, free⟩ := free k waiting
    exact ⟨_, changedKeep changed found, by rw [if_neg other]; exact free⟩
  · intro k item found
    obtain ⟨old, there, rfl⟩ := changedFind changed found
    split
    · exact rebuilt.codes k old there
    · exact rebuilt.codes k old there
  · have same := modifyTotal (rebuildUnsorted r).items id
      (fun item => { item with readStarted := true }) fun _ => rfl
    exact rebuilt.counted.trans same.symm

theorem rebuildAsk (r : Registry) : (getDoneMorton (rebuildUnsorted r)).2 = (getDoneMorton r).2 ∧
    (Short r → Short (rebuildUnsorted r)) ∧ (Resting r → Resting (rebuildUnsorted r)) := by
  unfold rebuildUnsorted
  split
  · refine ⟨Option.ext fun boundary => ?_, fun short => short, fun rests => rests⟩
    rw [yieldsIff, yieldsIff]
  · exact ⟨rfl, fun short => short, fun rests => rests⟩

structure Invariant (w : World) : Prop where
  shape : Shape w.registry
  covered : Covered w

theorem dispatchInvariant {picked : List Nat} {w blocked} (inv : Invariant w)
    (loop : dispatchInputs w picked = some blocked) : Invariant blocked := by
  induction picked generalizing w with
  | nil =>
    unfold dispatchInputs at loop
    generalize budgetLeft w = budget at loop
    split at loop
    · split at loop
      · cases Option.some.inj loop
        obtain ⟨asked, short, rests⟩ := rebuildAsk w.registry
        refine ⟨rebuildShape inv.shape, quietCovered inv.covered rfl short rests rfl fun b yields => ?_⟩
        exact ⟨b, asked ▸ yields, Nat.le_refl b⟩
      · contradiction
    · exact Option.some.inj loop ▸ inv
  | cons id rest ih =>
    unfold dispatchInputs at loop
    split at loop
    · rename_i ready
      obtain ⟨shape, unread⟩ := dispatchShape inv.shape ready.2
      exact ih ⟨shape, Or.inr (Or.inl (unreadShort shape unread))⟩ loop
    · contradiction

/-! ## Events -/

theorem startInvariant : Invariant Processor.start := by
  refine ⟨emptyShape, Or.inr (Or.inr ⟨Or.inr (Or.inl rfl), fun boundary yields => ?_⟩)⟩
  exact ((yieldsIff.mp yields).1 rfl).elim

theorem newFilesInvariant {w} (inv : Invariant w) : Invariant (handleNewFiles layout w) := by
  unfold handleNewFiles
  split
  · exact inv
  · rename_i names _ _
    obtain ⟨shape, either, _⟩ := @registerFilesShape layout names _ inv.shape
    refine ⟨shape, ?_⟩
    rcases either with same | ⟨id, unread⟩
    · refine quietCovered inv.covered rfl ?_ ?_ rfl fun b yields => ⟨b, ?_, Nat.le_refl b⟩
      · exact (congrArg Short same).mpr
      · exact (congrArg Resting same).mpr
      · exact (congrArg (fun r => (getDoneMorton r).2) same).symm.trans yields
    · exact Or.inr (Or.inl (unreadShort shape unread))

theorem noneSettled {refs : List Nat} {answers : List Answer}
    (none : retiredAny refs (settledIds (refs.zip answers)) = false)
    (empty : settledIds (refs.zip answers) = []) : refs = [] := by
  rw [empty] at none
  cases refs with
  | nil => rfl
  | cons id rest => simp [retiredAny] at none

theorem loweredKeeps {w : World} {results}
    (kept : w.isMutable = false ∨ batchFloor results = none) :
    loweredDone w results = w.lodDoneMorton := by
  unfold loweredDone
  rcases kept with fixed | none
  · simp [fixed]
  · simp [none]

theorem settleInvariant {w refs answers} (inv : Invariant w) (sound : SettleSound w refs answers) :
    Invariant (settle w refs answers) := by
  have retires := settleRetires w.registry refs answers
  have shape := retires.shape inv.shape
  unfold settle
  dsimp only
  split
  · exact ⟨maybeStartShape shape, maybeStartCovered _⟩
  rename_i quiet
  refine ⟨shape, ?_⟩
  rcases sound with silent | running | unread | counts | none | terminal
  · -- Nothing was answered and nothing retired, so the batch was empty.
    have nobody : refs = [] := by
      refine noneSettled ?_ silent
      simpa [silent] using quiet
    subst nobody
    have kept : loweredDone w ([].zip answers) = w.lodDoneMorton := loweredKeeps (Or.inr rfl)
    exact quietCovered inv.covered rfl (fun short => short) (fun rests => rests) kept fun b yields =>
      ⟨b, yields, Nat.le_refl b⟩
  · exact Or.inl running
  · obtain ⟨id, _, unread, away⟩ := unread
    exact Or.inr (Or.inl (unreadShort shape (retires.unread id away unread)))
  · refine Or.inr (Or.inl (Or.inr ?_))
    dsimp only
    rw [retires.withSub, retires.inserted]
    exact counts
  · refine Or.inr (Or.inr ⟨Or.inr (Or.inl (retires.sorted.trans none)), fun boundary yields => ?_⟩)
    exact absurd (retires.sorted.trans none) (yieldsIff.mp yields).1
  · have kept := Nat.le_trans terminal.1 (Nat.le_of_eq (loweredKeeps terminal.2).symm)
    exact Or.inr (Or.inr ⟨Or.inl kept, fun boundary yields => Nat.le_trans (boundaryLe shape yields) kept⟩)

-- The cursor rests before a file that is not done, or the boundary cannot rise at all.
theorem subAddedInvariant {w id} (inv : Invariant w) : Invariant { w with registry := handleSubAdded w.registry id } := by
  have shape : Shape (handleSubAdded w.registry id) :=
    @modifyShape w.registry _ id counted inv.shape rfl rfl rfl rfl (fun _ => rfl) (fun _ h => h) (fun _ h => h)
      fun clean => ⟨clean, rfl, fun _ h => h⟩
  refine ⟨shape, ?_⟩
  rcases inv.covered with running | short | ⟨rests, behind⟩
  · exact Or.inl running
  · refine Or.inr (Or.inl (short.imp (fun fewer => ?_) Nat.lt_succ_of_lt))
    unfold handleSubAdded modifyItem
    split
    · exact fewer
    · simpa [DenseMap.assign] using fewer
  · refine Or.inr (Or.inr ?_)
    rcases rests with terminal | none | still
    · exact ⟨Or.inl terminal, fun boundary yields => Nat.le_trans (boundaryLe shape yields) terminal⟩
    · exact ⟨Or.inr (Or.inl none), fun boundary yields => absurd none (yieldsIff.mp yields).1⟩
    · have cursor := @subCursor w.registry id still
      refine ⟨Or.inr (Or.inr cursor), fun boundary yields => ?_⟩
      obtain ⟨earlier, before, le⟩ := changedLe (subChanged w.registry id) (fun _ => rfl) (fun _ => rfl)
        (fun _ => Nat.le_refl _) rfl (cursor.trans still.symm) yields
      exact Nat.le_trans le (behind earlier before)

theorem widenCodes {item : Item} {min max : Nat} (code : item.mortonMin ≤ maxCode) :
    (widen min max item).mortonMin ≤ maxCode := by
  unfold widen
  dsimp only
  split
  · omega
  · exact code

theorem sortedInvariant {w id min max} (inv : Invariant w) :
    Invariant { w with registry := handleSortedPoints w.registry id min max } := by
  have shape : Shape (handleSortedPoints w.registry id min max) :=
    @modifyShape w.registry _ id (widen min max) inv.shape rfl rfl rfl rfl (fun _ => rfl) (fun _ h => h)
      (fun _ => widenCodes) fun clean => ⟨clean, rfl, fun _ h => h⟩
  refine ⟨shape, quietCovered inv.covered rfl (fun short => short.imp_left fun fewer => ?_) (fun rests => ?_) rfl
    fun b yields => sortedLe yields⟩
  · unfold handleSortedPoints modifyItem
    split
    · exact fewer
    · simpa [DenseMap.assign] using fewer
  · exact rests.imp_right fun still => (congrFun (congrFun (sortedCursor w.registry id min max) _) _).trans still

theorem readingDoneInvariant {w id} (inv : Invariant w)
    (reader : id ∈ w.registry.sortedInputSources) : Invariant (handleFileReadingDone w id) := by
  refine ⟨maybeStartShape (finishShape inv.shape fun item found => ?_), maybeStartCovered _⟩
  obtain ⟨now, there, started⟩ := inv.shape.started id reader
  cases Option.some.inj (found.symm.trans there)
  exact started

theorem treeDoneInvariant {w id} (inv : Invariant w) : Invariant (handleTreeDone w id) := by
  refine ⟨maybeStartShape ?_, maybeStartCovered _⟩
  exact modifyShape inv.shape rfl rfl rfl rfl (fun _ => rfl) (fun _ h => h) (fun _ h => h)
    fun clean => ⟨clean, rfl, fun _ h => h⟩

theorem indexWriteDoneInvariant {w committed} (inv : Invariant w) :
    Invariant (handleIndexWriteDone w committed) := by
  unfold handleIndexWriteDone
  split
  · exact inv
  · exact ⟨maybeStartShape inv.shape, maybeStartCovered _⟩

theorem sameInvariant {w after : World} (inv : Invariant w) (registry : after.registry = w.registry)
    (generating : after.generatingLod = w.generatingLod) (lod : after.lodDoneMorton = w.lodDoneMorton) :
    Invariant after := by
  refine ⟨registry ▸ inv.shape, quietCovered inv.covered generating ?_ ?_ lod fun b yields => ?_⟩
  · exact fun short => registry.symm ▸ short
  · exact fun rests => registry.symm ▸ rests
  · exact ⟨b, registry ▸ yields, Nat.le_refl b⟩

/-! ## Runs -/

theorem performInvariant {w a} (inv : Invariant w) (allowed : Allowed w a) (sound : StepSound w a) :
    Invariant (perform layout w a) := by
  cases a with
  | addFiles names => exact sameInvariant inv rfl rfl rfl
  | handleNewFiles => exact newFilesInvariant inv
  | preInitDone batch answers =>
    obtain ⟨refs, here, _⟩ := allowed
    have found : w.batches[batch]? = some refs := here
    have settled := sound refs here
    simp only [perform, handlePreInitDone, found]
    refine settleInvariant ?_ settled
    exact sameInvariant inv rfl rfl rfl
  | subAdded id => exact subAddedInvariant inv
  | sorted id min max => exact sortedInvariant inv
  | readingDone id => exact readingDoneInvariant inv allowed
  | treeDone id => exact treeDoneInvariant inv
  | indexWriteDone committed => exact indexWriteDoneInvariant inv
  | setMutable value => exact sameInvariant inv rfl rfl rfl
  | aboutToBlock picked =>
    obtain ⟨after, blocked⟩ := Option.isSome_iff_exists.mp allowed
    simp only [perform, blocked, Option.getD_some]
    obtain ⟨settled, loop, rfl⟩ := Option.map_eq_some_iff.mp blocked
    have kept := dispatchInvariant inv loop
    split
    · exact sameInvariant kept rfl rfl rfl
    · exact kept

variable (layout)

theorem invariantHolds : Inductive ((system layout).under StepSound) Invariant := by
  constructor
  · intro w first
    cases first
    exact startInvariant
  · intro w a after inv step
    obtain ⟨sound, allowed, rfl⟩ := step
    exact performInvariant inv allowed sound

theorem invariantIdle {w} (inv : Invariant w) : IdleSound w := by
  intro picked blocked loop idle boundary yields
  simp only [settlesIdle, Bool.and_eq_true, Bool.not_eq_true', decide_eq_true_eq] at idle
  rcases (dispatchInvariant inv loop).covered with running | short | nothing
  · exact absurd (idle.2.symm.trans running) Bool.false_ne_true
  · exact absurd ((shortOpen short).symm.trans idle.1.1) Bool.false_ne_true
  · exact nothing.behind boundary yields

theorem neverIdleBehind {w} (reach : Reachable ((system layout).under StepSound) w) : IdleSound w :=
  invariantIdle (reachableInvariant (invariantHolds layout) reach)

-- A file of one chunk, and a second batch whose only file fails after the terminal pass.
def terminalActions : List Action :=
  [.addFiles [[97]], .handleNewFiles, .preInitDone 0 [.success (some 5) 10 4], .aboutToBlock [0],
    .subAdded 0, .sorted 0 6 9, .treeDone 0, .readingDone 0, .indexWriteDone maxCode,
    .addFiles [[98]], .handleNewFiles, .preInitDone 0 [.failure]]

theorem terminalIdle :
    IdleSound (terminalActions.foldl (perform (appendLayout Nat Item)) Processor.start) :=
  neverIdleBehind _ (reachableAllowed (by decide))

/-! The second batch is registered before the first file is inserted, so its undecided order holds
the boundary at zero. Its pre-init then fails: the boundary rises and nobody asks for it. -/

def failedBatchActions : List Action :=
  [.addFiles [[97]], .handleNewFiles, .preInitDone 0 [.success (some 5) 10 4], .aboutToBlock [0],
    .addFiles [[98]], .handleNewFiles, .subAdded 0, .sorted 0 6 9, .treeDone 0, .readingDone 0,
    .preInitDone 0 [.failure]]

theorem failedBatchIdle :
    let w := failedBatchActions.foldl (perform (appendLayout Nat Item)) Processor.start
    (dispatchInputs w []).map (fun w => (settlesIdle w, (getDoneMorton w.registry).2, w.lodDoneMorton)) =
      some (true, some maxCode, 0) := by
  decide

theorem failedBatchLeft : ¬∀ layout w, Reachable (system layout) w → IdleSound w := by
  intro all
  have run : AllAllowed (fun w a => True ∧ Allowed w a) (perform (appendLayout Nat Item))
      Processor.start failedBatchActions := by decide
  have sound := all _ _ (reachableUnder (reachableAllowed run))
  obtain ⟨blocked, loop, facts⟩ := Option.map_eq_some_iff.mp failedBatchIdle
  simp only [Prod.mk.injEq] at facts
  obtain ⟨idle, yields, done⟩ := facts
  have passed := sound [] blocked loop idle maxCode yields
  rw [done] at passed
  exact absurd passed (by decide)

end Dewfall.ProcessorIdle
