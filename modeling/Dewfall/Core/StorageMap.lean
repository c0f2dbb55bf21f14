import Mathlib.Algebra.Group.Nat.Defs
import Mathlib.Logic.Function.Basic

/-! Units and their blobs: identifiers, locations, and the reference-counted storage map of a tree. A
call on an identifier that the map does not hold has no result; it is an assertion of the source.
Counts are not taken modulo their width. -/
namespace Dewfall.StorageMap

structure InputId where
  data : Nat
  sub : Nat
  deriving DecidableEq, Repr

def isLeaf (id : InputId) : Bool := !id.sub.testBit 31
def isCollapsedLeaf (id : InputId) : Bool := !id.sub.testBit 31 && id.sub.testBit 30
-- A unit written by a reader.
def isChunk (id : InputId) : Bool := isLeaf id && !isCollapsedLeaf id

structure Location where
  fileId : Nat
  offset : Nat
  size : Nat
  deriving DecidableEq, Repr

structure Value where
  attributesId : Nat
  storage : List Location
  refCount : Nat
  deriving DecidableEq, Repr

structure InputStorageMap where
  map : InputId → Option Value
  discarded : List Location

def fresh : InputStorageMap := ⟨fun _ => none, []⟩

def blobs (storage : List Location) : List Location := storage.filter fun l => l.size ≠ 0

namespace InputStorageMap

def contains (m : InputStorageMap) (id : InputId) : Bool := (m.map id).isSome

def refCount (m : InputStorageMap) (id : InputId) : Nat := ((m.map id).map Value.refCount).getD 0

-- A known unit is described anew and keeps its count; what it was stored in is discarded.
def addStorage (m : InputStorageMap) (id : InputId) (attributesId : Nat) (storage : List Location) :
    InputStorageMap :=
  match m.map id with
  | none => ⟨Function.update m.map id (some ⟨attributesId, storage, 1⟩), m.discarded⟩
  | some value => ⟨Function.update m.map id (some ⟨attributesId, storage, value.refCount⟩),
      m.discarded ++ blobs value.storage⟩

def addRef (m : InputStorageMap) (id : InputId) : Option InputStorageMap :=
  (m.map id).map fun value =>
    ⟨Function.update m.map id (some ⟨value.attributesId, value.storage, value.refCount + 1⟩), m.discarded⟩

def dropRef (m : InputStorageMap) (id : InputId) (value : Value) : InputId → Option Value :=
  Function.update m.map id
    (if value.refCount - 1 = 0 then none else some { value with refCount := value.refCount - 1 })

def dereference (m : InputStorageMap) (id : InputId) : Option (InputStorageMap × Nat × List Location) :=
  (m.map id).map fun value => (⟨dropRef m id value, m.discarded⟩, value.attributesId, value.storage)

def dereferenceDiscard (m : InputStorageMap) (id : InputId) : Option InputStorageMap :=
  (m.map id).map fun value =>
    ⟨dropRef m id value, if value.refCount - 1 = 0 then m.discarded ++ blobs value.storage else m.discarded⟩

def location (m : InputStorageMap) (id : InputId) (attributeIndex : Nat) : Option Location :=
  (m.map id).bind fun value => value.storage[attributeIndex]?

def restoreDiscarded (m : InputStorageMap) (discarded : List Location) : InputStorageMap :=
  { m with discarded := m.discarded ++ discarded }

/-! ## Counts -/

-- Every unit of the map has a reference, and is stored where it was said to be.
def Describes (stored : InputId → Nat × List Location) (m : InputStorageMap) : Prop :=
  ∀ id value, m.map id = some value → 0 < value.refCount ∧ (value.attributesId, value.storage) = stored id

variable {m : InputStorageMap} {stored : InputId → Nat × List Location} {id : InputId}

theorem refCountNone (absent : m.map id = none) : m.refCount id = 0 := by simp [refCount, absent]

theorem refCountSome {value} (here : m.map id = some value) : m.refCount id = value.refCount := by
  simp [refCount, here]

theorem refCountZero (described : Describes stored m) : m.refCount id = 0 ↔ m.map id = none := by
  cases here : m.map id with
  | none => simp [refCountNone here]
  | some value =>
    have positive := (described id value here).1
    rw [refCountSome here]
    simp only [reduceCtorEq, iff_false]
    omega

theorem containsIff (described : Describes stored m) : m.contains id = true ↔ 0 < m.refCount id := by
  rw [contains, Option.isSome_iff_ne_none, Nat.pos_iff_ne_zero, ne_eq, ne_eq, refCountZero described]

theorem held (positive : 0 < m.refCount id) : ∃ value, m.map id = some value ∧ value.refCount = m.refCount id := by
  cases here : m.map id with
  | none => rw [refCountNone here] at positive; omega
  | some value => exact ⟨value, rfl, (refCountSome here).symm⟩

theorem updateCount {map : InputId → Option Value} {value discarded} (other : InputId) :
    refCount ⟨Function.update map id value, discarded⟩ other =
      if other = id then (value.map Value.refCount).getD 0 else refCount ⟨map, discarded⟩ other := by
  unfold refCount
  dsimp only
  by_cases same : other = id
  · subst same
    rw [Function.update_self, if_pos rfl]
  · rw [Function.update_of_ne same, if_neg same]

theorem updateDescribes {value : Option Value} {discarded} (described : Describes stored m)
    (kept : ∀ v ∈ value, 0 < v.refCount ∧ (v.attributesId, v.storage) = stored id) :
    Describes stored ⟨Function.update m.map id value, discarded⟩ := by
  intro other v here
  dsimp only at here
  by_cases same : other = id
  · subst same
    rw [Function.update_self] at here
    exact kept v here
  · rw [Function.update_of_ne same] at here
    exact described other v here

theorem addStorageSpec (described : Describes stored m) (absent : m.map id = none) {attributesId storage}
    (same : (attributesId, storage) = stored id) :
    Describes stored (m.addStorage id attributesId storage) ∧
      (m.addStorage id attributesId storage).discarded = m.discarded ∧
      ∀ other, (m.addStorage id attributesId storage).refCount other = if other = id then 1 else m.refCount other := by
  unfold addStorage
  rw [absent]
  refine ⟨updateDescribes described fun v here => ?_, rfl, fun other => ?_⟩
  · cases here
    exact ⟨Nat.one_pos, same⟩
  · rw [updateCount]
    rfl

theorem addRefSpec (described : Describes stored m) (positive : 0 < m.refCount id) :
    ∃ m', m.addRef id = some m' ∧ Describes stored m' ∧ m'.discarded = m.discarded ∧
      ∀ other, m'.refCount other = if other = id then m.refCount id + 1 else m.refCount other := by
  obtain ⟨value, here, count⟩ := held positive
  obtain ⟨_, same⟩ := described id value here
  refine ⟨_, by rw [addRef, here]; rfl, updateDescribes described fun v there => ?_, rfl, fun other => ?_⟩
  · cases there
    exact ⟨Nat.succ_pos _, same⟩
  · rw [updateCount, ← count]
    rfl

theorem dropRefSpec (described : Describes stored m) {value} (here : m.map id = some value) {discarded} :
    Describes stored ⟨m.dropRef id value, discarded⟩ ∧
      ∀ other, refCount ⟨m.dropRef id value, discarded⟩ other =
        if other = id then m.refCount id - 1 else m.refCount other := by
  obtain ⟨_, same⟩ := described id value here
  refine ⟨updateDescribes described fun v there => ?_, fun other => ?_⟩
  · split at there
    · cases there
    · rename_i more
      cases there
      exact ⟨Nat.pos_of_ne_zero more, same⟩
  · unfold dropRef
    rw [updateCount, refCountSome here]
    split
    · split
      · rename_i none
        rw [none]
        rfl
      · rfl
    · rfl

theorem dereferenceSpec (described : Describes stored m) (positive : 0 < m.refCount id) :
    ∃ m', m.dereference id = some (m', stored id) ∧ Describes stored m' ∧ m'.discarded = m.discarded ∧
      ∀ other, m'.refCount other = if other = id then m.refCount id - 1 else m.refCount other := by
  obtain ⟨value, here, _⟩ := held positive
  obtain ⟨_, same⟩ := described id value here
  obtain ⟨left, counts⟩ := dropRefSpec described here
  exact ⟨⟨m.dropRef id value, m.discarded⟩, by rw [dereference, here, ← same]; rfl, left, rfl, counts⟩

-- What is discarded is only known where references are left.
theorem dereferenceDiscardSpec (described : Describes stored m) (positive : 0 < m.refCount id) :
    ∃ m', m.dereferenceDiscard id = some m' ∧ Describes stored m' ∧
      (1 < m.refCount id → m'.discarded = m.discarded) ∧
      ∀ other, m'.refCount other = if other = id then m.refCount id - 1 else m.refCount other := by
  obtain ⟨value, here, count⟩ := held positive
  rw [dereferenceDiscard, here, Option.map_some]
  obtain ⟨left, counts⟩ := dropRefSpec described here
  exact ⟨_, rfl, left, fun more => if_neg (by omega), counts⟩

theorem locationSpec (described : Describes stored m) (positive : 0 < m.refCount id) (index : Nat) :
    m.location id index = (stored id).2[index]? := by
  obtain ⟨value, here, _⟩ := held positive
  obtain ⟨_, same⟩ := described id value here
  rw [location, here, ← same]
  rfl

end InputStorageMap

end Dewfall.StorageMap
