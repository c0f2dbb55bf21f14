import Dewfall.Converter.InputRegistry

/-! What a checkpoint keeps of the input registry, and the registry a resumed conversion starts with.
The rows are taken in the order of the map; their byte layout and its width limits are left out, as
are attributes, public headers and storage locations, which are not kept. -/
namespace Dewfall.InputSnapshot
open General InputRegistry

structure Row where
  id : Nat
  name : Name
  inputOrder : Nat
  mortonMin : Nat
  mortonMax : Nat
  subCount : Nat
  insertedIntoTree : Nat
  readStarted : Bool
  readFinished : Bool
  deriving DecidableEq, Repr

structure Snapshot where
  rows : List Row
  sortedInputSources : List Nat
  donePrefixIndex : Nat
  deriving DecidableEq, Repr

def rowOf (e : Nat × Item) : Row :=
  ⟨e.1, e.2.name, e.2.inputOrder, e.2.mortonMin, e.2.mortonMax, e.2.subCount, e.2.insertedIntoTree,
    e.2.readStarted, e.2.readFinished⟩

def serialize (r : Registry) : Snapshot :=
  ⟨r.items.entries.map rowOf, r.sortedInputSources, r.donePrefixIndex⟩

/-! ## deserialize -/

-- The snapshot has no pre-init section, so a restored file may be dispatched at once.
def readItem (row : Row) : Item where
  name := row.name
  mortonMin := row.mortonMin
  mortonMax := row.mortonMax
  inputOrder := row.inputOrder
  readStarted := row.readStarted
  readFinished := row.readFinished
  preInitSettled := true
  insertedIntoTree := row.insertedIntoTree
  subCount := row.subCount
  approximatePointCount := 0
  approximatePointSizeBytes := 0

variable (layout : Layout Nat Item)

def readRow (r : Registry) (row : Row) : Registry :=
  { r with
    items := r.items.insert layout row.id (readItem row)
    inputDataWithSubParts := r.inputDataWithSubParts + row.subCount
    inputDataInsertedToTree := r.inputDataInsertedToTree + row.insertedIntoTree
    inputDataIdDoneCount := r.inputDataIdDoneCount + row.readFinished.toNat }

def maxId (rows : List Row) : Nat := rows.foldl (fun most row => if most < row.id then row.id else most) 0

def ensureNextInputIdAbove (next maxSeenId : Nat) : Nat := if next ≤ maxSeenId then maxSeenId + 1 else next

-- Read to the end with every counted chunk in the tree; unlike the done prefix it asks for equality.
def Item.whole (item : Item) : Bool := item.readFinished && item.insertedIntoTree = item.subCount

structure Settled where
  items : DenseMap Nat Item
  stillSorted : List Nat
  newDonePrefix : Nat

-- A dispatched file that is not done is read again from scratch. `none` for an unknown file.
def settle (donePrefixIndex : Nat) : Nat → List Nat → Settled → Option Settled
  | _, [], s => some s
  | i, id :: rest, s =>
    match s.items.find id with
    | none => none
    | some item =>
      if Item.whole item then
        settle donePrefixIndex (i + 1) rest { s with
          stillSorted := s.stillSorted ++ [id]
          newDonePrefix := if i < donePrefixIndex then s.stillSorted.length + 1 else s.newDonePrefix }
      else
        settle donePrefixIndex (i + 1) rest { s with items := s.items.assign id { item with readStarted := false } }

-- `next` is the process-wide id counter.
def deserialize (next : Nat) (snapshot : Snapshot) : Option Registry :=
  let read := snapshot.rows.foldl (readRow layout) empty
  match settle snapshot.donePrefixIndex 0 snapshot.sortedInputSources ⟨read.items, [], 0⟩ with
  | none => none
  | some settled => some { read with
      items := settled.items
      nextInputId := ensureNextInputIdAbove next (maxId snapshot.rows)
      unsortedInputSources := []
      sortedInputSources := settled.stillSorted
      unsortedInputSourcesDirty := true
      donePrefixIndex := settled.newDonePrefix }

/-! ## Reading the rows back -/

structure ReadBack (before after : Registry) (rows : List Row) : Prop where
  found : ∀ k, after.items.find k = ((rows.find? fun row => row.id = k).map readItem).or (before.items.find k)
  total : ∀ g : Item → Nat, after.items.total g = before.items.total g + (rows.map fun row => g (readItem row)).sum
  added : after.inputDataWithSubParts = before.inputDataWithSubParts + (rows.map Row.subCount).sum
  inserted : after.inputDataInsertedToTree = before.inputDataInsertedToTree + (rows.map Row.insertedIntoTree).sum
  finished : after.inputDataIdDoneCount =
    before.inputDataIdDoneCount + (rows.map fun row => row.readFinished.toNat).sum

variable {layout}

theorem readRows {rows : List Row} {before : Registry} (distinct : (rows.map Row.id).Nodup)
    (fresh : ∀ row ∈ rows, before.items.find row.id = none) :
    ReadBack before (rows.foldl (readRow layout) before) rows := by
  induction rows generalizing before with
  | nil => exact ⟨fun _ => rfl, fun _ => rfl, rfl, rfl, rfl⟩
  | cons row rest ih =>
    obtain ⟨first, later⟩ := List.nodup_cons.mp distinct
    have absent := fresh row List.mem_cons_self
    have placed := DenseMap.findInsert layout before.items row.id (readItem row)
    have others : ∀ other ∈ rest, (readRow layout before row).items.find other.id = none := by
      intro other mem
      have away : other.id ≠ row.id := fun same => first (same ▸ List.mem_map_of_mem mem)
      exact (placed other.id).trans ((if_neg away).trans (fresh other (List.mem_cons_of_mem _ mem)))
    obtain ⟨found, total, added, inserted, finished⟩ := ih later others
    refine ⟨fun k => ?_, fun g => ?_, ?_, ?_, ?_⟩
    · rw [List.foldl_cons, found k]
      have here : (readRow layout before row).items.find k =
          if k = row.id then some (readItem row) else before.items.find k := placed k
      by_cases same : row.id = k
      · have none_ : (rest.find? fun other => other.id = k) = none := by
          refine List.find?_eq_none.mpr fun other mem here => first ?_
          rw [same, ← of_decide_eq_true here]
          exact List.mem_map_of_mem mem
        rw [none_, here, if_pos same.symm, List.find?_cons_of_pos (by simpa using same)]
        rfl
      · rw [here, if_neg fun h => same h.symm, List.find?_cons_of_neg (by simpa using same)]
    · have step := DenseMap.totalInsert layout before.items row.id (readItem row) g
      rw [absent, Option.map_none, Option.getD_none, Nat.add_zero] at step
      rw [List.foldl_cons, total g, List.map_cons, List.sum_cons, ← Nat.add_assoc]
      exact congrArg (· + _) step
    · rw [List.foldl_cons, added, List.map_cons, List.sum_cons, ← Nat.add_assoc]
      rfl
    · rw [List.foldl_cons, inserted, List.map_cons, List.sum_cons, ← Nat.add_assoc]
      rfl
    · rw [List.foldl_cons, finished, List.map_cons, List.sum_cons, ← Nat.add_assoc]
      rfl

-- A file's entry as it is read back from its row.
def kept (item : Item) : Item :=
  { item with preInitSettled := true, approximatePointCount := 0, approximatePointSizeBytes := 0 }

theorem readSerialized (r : Registry) :
    let after := (serialize r).rows.foldl (readRow layout) empty
    (∀ k, after.items.find k = (r.items.find k).map kept) ∧
      (∀ g : Item → Nat, after.items.total g = r.items.total fun item => g (kept item)) ∧
      after.inputDataWithSubParts = r.items.total Item.subCount ∧
      after.inputDataInsertedToTree = r.items.total Item.insertedIntoTree ∧
      after.inputDataIdDoneCount = r.items.total fun item => item.readFinished.toNat := by
  intro after
  have ids : (serialize r).rows.map Row.id = r.items.entries.map Prod.fst := by
    simp only [serialize, List.map_map]
    rfl
  have back : ReadBack empty after (serialize r).rows :=
    readRows (ids ▸ r.items.distinct) fun _ _ => rfl
  have sums : ∀ g : Row → Nat, ((serialize r).rows.map g).sum = (r.items.entries.map fun e => g (rowOf e)).sum := by
    intro g
    simp only [serialize, List.map_map]
    rfl
  refine ⟨fun k => ?_, fun g => ?_, ?_, ?_, ?_⟩
  · rw [back.found k]
    simp only [serialize, List.find?_map, DenseMap.find, empty, DenseMap.empty, List.find?_nil, Option.map_none,
      Option.or_none, Option.map_map]
    rfl
  · rw [back.total g, sums fun row => g (readItem row)]
    exact Nat.zero_add _
  · rw [back.added, sums Row.subCount]
    exact Nat.zero_add _
  · rw [back.inserted, sums Row.insertedIntoTree]
    exact Nat.zero_add _
  · rw [back.finished, sums fun row => row.readFinished.toNat]
    exact Nat.zero_add _

/-! ## The files that are read again -/

def wholeId (items : DenseMap Nat Item) (id : Nat) : Bool := ((items.find id).map Item.whole).getD false

def unstarted (item : Item) : Item := { item with readStarted := false }

-- What settling leaves of an entry.
def settledItem (sorted : List Nat) (id : Nat) (item : Item) : Item :=
  if id ∈ sorted ∧ Item.whole item = false then unstarted item else item

structure Settles (before : Settled) (sorted : List Nat) (after : Settled) : Prop where
  found : ∀ k, after.items.find k = (before.items.find k).map (settledItem sorted k)
  still : after.stillSorted = before.stillSorted ++ sorted.filter (wholeId before.items)
  bounded : before.newDonePrefix ≤ before.stillSorted.length → after.newDonePrefix ≤ after.stillSorted.length
  total : ∀ g : Item → Nat, (∀ item, g (unstarted item) = g item) → after.items.total g = before.items.total g

theorem settleSkips {before after : Settled} {id item} {rest : List Nat} {index : Nat}
    (found : before.items.find id = some item) (whole : Item.whole item = true)
    (later : Settles { before with stillSorted := before.stillSorted ++ [id], newDonePrefix := index } rest after)
    (room : index ≤ before.stillSorted.length + 1 ∨ index = before.newDonePrefix) : Settles before (id :: rest) after := by
  refine ⟨fun k => ?_, ?_, fun short => later.bounded ?_, later.total⟩
  · rw [later.found k]
    refine Option.map_congr fun other there => ?_
    unfold settledItem
    by_cases same : k = id
    · subst same
      cases Option.some.inj (there.symm.trans found)
      rw [whole]
      simp
    · simp [same]
  · have here : wholeId before.items id = true := by rw [wholeId, found]; exact whole
    rw [later.still, List.filter_cons_of_pos here, List.append_assoc]
    rfl
  · rw [List.length_append, List.length_singleton]
    rcases room with le | same
    · exact le
    · dsimp only
      omega

theorem settleAgain {before after : Settled} {id item} {rest : List Nat}
    (found : before.items.find id = some item) (partly : Item.whole item = false)
    (later : Settles { before with items := before.items.assign id (unstarted item) } rest after) :
    Settles before (id :: rest) after := by
  have placed := DenseMap.findAssign found (unstarted item)
  have whole : wholeId (before.items.assign id (unstarted item)) = wholeId before.items := by
    funext k
    unfold wholeId
    rw [placed k]
    split
    · rename_i same
      rw [same, found]
      rfl
    · rfl
  refine ⟨fun k => ?_, ?_, later.bounded, fun g same => ?_⟩
  · rw [later.found k]
    dsimp only
    rw [placed k]
    by_cases same : k = id
    · subst same
      rw [if_pos rfl, found, Option.map_some, Option.map_some]
      have still : Item.whole (unstarted item) = false := partly
      simp only [settledItem, still, partly, List.mem_cons_self, and_true, if_true, Option.some.injEq]
      split
      · rfl
      · rfl
    · rw [if_neg same]
      refine Option.map_congr fun other _ => ?_
      simp [settledItem, same]
  · have here : ¬wholeId before.items id = true := by
      rw [wholeId, found]
      simp [partly]
    rw [later.still, List.filter_cons_of_neg here]
    dsimp only
    rw [whole]
  · have step := DenseMap.totalAssign found (unstarted item) g
    rw [same item] at step
    rw [later.total g same]
    exact Nat.add_right_cancel step

theorem settleDone (limit : Nat) (sorted : List Nat) (i : Nat) (before : Settled)
    (known : ∀ id ∈ sorted, ∃ item, before.items.find id = some item) :
    ∃ after, settle limit i sorted before = some after ∧ Settles before sorted after := by
  induction sorted generalizing i before with
  | nil =>
    refine ⟨before, rfl, fun k => ?_, (List.append_nil _).symm, fun h => h, fun _ _ => rfl⟩
    have same : ∀ item, settledItem [] k item = item := fun item => by simp [settledItem]
    cases before.items.find k with
    | none => rfl
    | some item => rw [Option.map_some, same]
  | cons id rest ih =>
    obtain ⟨item, found⟩ := known id List.mem_cons_self
    unfold settle
    rw [found]
    dsimp only
    by_cases whole : Item.whole item = true
    · rw [if_pos whole]
      obtain ⟨after, done, later⟩ := ih (i + 1) { before with
        stillSorted := before.stillSorted ++ [id]
        newDonePrefix := if i < limit then before.stillSorted.length + 1 else before.newDonePrefix }
        fun other mem => known other (List.mem_cons_of_mem _ mem)
      refine ⟨after, done, settleSkips found whole later ?_⟩
      split
      · exact Or.inl (Nat.le_refl _)
      · exact Or.inr rfl
    · rw [if_neg whole]
      have partly : Item.whole item = false := by simpa using whole
      obtain ⟨after, done, later⟩ := ih (i + 1) { before with items := before.items.assign id (unstarted item) } (by
        intro other mem
        obtain ⟨old, there⟩ := known other (List.mem_cons_of_mem _ mem)
        rw [DenseMap.findAssign found]
        split
        · exact ⟨_, rfl⟩
        · exact ⟨old, there⟩)
      exact ⟨after, done, settleAgain found partly later⟩

/-! ## The restored registry -/

theorem maxIdLe {rows : List Row} {row} (mem : row ∈ rows) : row.id ≤ maxId rows := by
  have grows : ∀ (rest : List Row) (most : Nat),
      most ≤ rest.foldl (fun most row => if most < row.id then row.id else most) most ∧
        ∀ other ∈ rest, other.id ≤ rest.foldl (fun most row => if most < row.id then row.id else most) most := by
    intro rest
    induction rest with
    | nil => simp
    | cons first rest ih =>
      intro most
      obtain ⟨le, each⟩ := ih (if most < first.id then first.id else most)
      rw [List.foldl_cons]
      refine ⟨Nat.le_trans ?_ le, fun other here => ?_⟩
      · split
        · omega
        · exact Nat.le_refl _
      · rcases List.mem_cons.mp here with rfl | later
        · refine Nat.le_trans ?_ le
          split
          · exact Nat.le_refl _
          · omega
        · exact each other later
  exact (grows rows 0).2 row mem

structure Restored (r after : Registry) : Prop where
  found : ∀ k, after.items.find k = (r.items.find k).map fun item => settledItem r.sortedInputSources k (kept item)
  still : after.sortedInputSources = r.sortedInputSources.filter (wholeId r.items)
  cursor : after.donePrefixIndex ≤ after.sortedInputSources.length
  fresh : ∀ id item, after.items.find id = some item → id < after.nextInputId
  added : after.inputDataWithSubParts = after.items.total Item.subCount
  inserted : after.inputDataInsertedToTree = after.items.total Item.insertedIntoTree
  finished : after.inputDataIdDoneCount = after.items.total fun item => item.readFinished.toNat
  dirty : after.unsortedInputSourcesDirty = true

theorem deserialized {r : Registry} (next : Nat)
    (known : ∀ id ∈ r.sortedInputSources, ∃ item, r.items.find id = some item) :
    ∃ after, deserialize layout next (serialize r) = some after ∧ Restored r after := by
  obtain ⟨found, total, added, inserted, finished⟩ := @readSerialized layout r
  generalize read : (serialize r).rows.foldl (readRow layout) empty = rows at *
  have whole : wholeId rows.items = wholeId r.items := by
    funext k
    unfold wholeId
    rw [found k, Option.map_map]
    rfl
  obtain ⟨settled, done, settles⟩ := settleDone (serialize r).donePrefixIndex (serialize r).sortedInputSources 0
    ⟨rows.items, [], 0⟩ (by
      intro id mem
      obtain ⟨item, there⟩ := known id mem
      exact ⟨kept item, by rw [found id, there]; rfl⟩)
  have items : ∀ k, settled.items.find k =
      (r.items.find k).map fun item => settledItem r.sortedInputSources k (kept item) := by
    intro k
    rw [settles.found k, found k, Option.map_map]
    rfl
  refine ⟨_, by simp only [deserialize, read, done]; rfl, items, ?_, settles.bounded (Nat.le_refl _), ?_, ?_, ?_, ?_, rfl⟩
  · have still := settles.still
    rw [List.nil_append, whole] at still
    exact still
  · intro id item there
    have here : settled.items.find id = some item := there
    rw [items id] at here
    obtain ⟨old, before, _⟩ := Option.map_eq_some_iff.mp here
    have mem : rowOf (id, old) ∈ (serialize r).rows := List.mem_map_of_mem (DenseMap.findMem.mp before)
    have le : id ≤ maxId (serialize r).rows := maxIdLe mem
    show id < ensureNextInputIdAbove next (maxId (serialize r).rows)
    unfold ensureNextInputIdAbove
    split
    · omega
    · omega
  · exact added.trans ((settles.total Item.subCount fun _ => rfl).trans (total _)).symm
  · exact inserted.trans ((settles.total Item.insertedIntoTree fun _ => rfl).trans (total _)).symm
  · exact finished.trans ((settles.total (fun item => item.readFinished.toNat) fun _ => rfl).trans (total _)).symm

end Dewfall.InputSnapshot
