import Dewfall.Core.BlobResidency
import Dewfall.General.LinkedList
import Mathlib.Data.List.Find
import Mathlib.Data.List.Perm.Subperm

/-! The residency table as it is stored: entries in slots of a slab, found by offset, with the slots
of forgotten entries used again, and the LRU linked through the slots. The link fields of the slots
are kept beside the slots. Indices are not bounded by 32 bits. -/
namespace Dewfall.ResidencySlab
open General General.LinkedList BlobResidency

structure Slot where
  offset : Nat
  entry : Entry
  deriving DecidableEq, Repr

def blank : Slot := ⟨0, ⟨0, .localUploaded, false, 0, 0, 0⟩⟩

structure Table where
  map : DenseMap Nat Nat
  slab : List Slot
  -- The slot that was freed last stands first.
  freeSlots : List Nat
  links : Links
  residentBytes : Nat
  cap : Nat
  generation : Nat

def empty : Table := ⟨DenseMap.empty, [], [], LinkedList.empty, 0, 0, 1⟩

def slot (t : Table) (idx : Nat) : Slot := t.slab[idx]?.getD blank

def setEntry (t : Table) (idx : Nat) (e : Entry) : Table :=
  { t with slab := t.slab.set idx { slot t idx with entry := e } }

def accountAlloc (t : Table) (bytes : Nat) : Table := { t with residentBytes := u64 (t.residentBytes + bytes) }

def accountFreed (t : Table) (bytes : Nat) : Table := { t with residentBytes := t.residentBytes - bytes }

variable (layout : Layout Nat Nat)

def getOrCreate (t : Table) (offset size : Nat) : Table × Nat :=
  match t.map.find offset with
  | some idx => (t, idx)
  | none =>
    let fresh : Slot := ⟨offset, { blank.entry with size := size }⟩
    match t.freeSlots with
    | idx :: rest => ({ t with
        freeSlots := rest
        slab := t.slab.set idx fresh
        links := clear t.links idx
        map := t.map.insert layout offset idx }, idx)
    | [] => ({ t with
        slab := t.slab ++ [fresh]
        links := clear t.links t.slab.length
        map := t.map.insert layout offset t.slab.length }, t.slab.length)

def markUploaded (t : Table) (offset size remoteId : Nat) : Table × Nat :=
  let (t, idx) := getOrCreate layout t offset size
  let e := (slot t idx).entry
  let marked := { e with
    state := shipped e.state
    remoteId := remoteId
    durable := false
    markedGeneration := t.generation }
  let t := setEntry t idx marked
  (if marked.state = .localUploaded then { t with links := pushFront (unlink t.links idx) idx } else t,
    spillReference e)

def markSpilledAs (state : State) (t : Table) (offset size remoteId : Nat) : Table :=
  let (t, idx) := getOrCreate layout t offset size
  setEntry { t with links := unlink t.links idx } idx { (slot t idx).entry with
    state := state
    remoteId := remoteId
    durable := false
    markedGeneration := t.generation }

def markSpilled := markSpilledAs layout .localSpilled
def markSpilledRemote := markSpilledAs layout .remoteSpilled

def serializeGeneration (t : Table) : Table × Nat := ({ t with generation := u32 (t.generation + 1) }, t.generation)

def settleSlot (generation : Nat) (s : Slot) : Slot := { s with entry := settleDurable generation s.entry }

def commitDurable (t : Table) (generation : Nat) : Table :=
  { t with slab := t.map.entries.foldl (fun slab e => slab.modify e.2 (settleSlot generation)) t.slab }

def evict (t : Table) (offset : Nat) : Option Table :=
  match t.map.find offset with
  | none => none
  | some idx =>
    let e := (slot t idx).entry
    if e.state = .localUploaded && evictable e then some (accountFreed (setEntry { t with
      links := unlink t.links idx } idx { e with state := .remoteUploaded }) e.size)
    else none

def dropSpilledLocal (t : Table) (offset : Nat) : Option Table :=
  match t.map.find offset with
  | none => none
  | some idx =>
    let e := (slot t idx).entry
    if e.state = .localSpilled && evictable e then
      some (accountFreed (setEntry t idx { e with state := .remoteSpilled }) e.size)
    else none

def forget (t : Table) (offset : Nat) : Option (Table × Forgotten) :=
  match t.map.find offset with
  | none => none
  | some idx =>
    let e := (slot t idx).entry
    let settled := if e.state.hasLocalBytes then accountFreed t e.size else t
    some ({ settled with
      links := clear (unlink settled.links idx) idx
      map := settled.map.erase layout offset
      slab := settled.slab.set idx blank
      freeSlots := idx :: settled.freeSlots },
      ⟨e.state.hasLocalBytes && e.inflightLocalReads = 0, e.state.spilled, e.remoteId⟩)

def touch (t : Table) (offset : Nat) : Table :=
  match t.map.find offset with
  | some idx =>
    if (slot t idx).entry.state = .localUploaded then { t with links := pushFront (unlink t.links idx) idx } else t
  | none => t

def modifyEntry (t : Table) (offset : Nat) (f : Entry → Entry) : Table :=
  match t.map.find offset with
  | some idx => setEntry t idx (f (slot t idx).entry)
  | none => t

def beginLocalRead (t : Table) (offset : Nat) : Table :=
  modifyEntry t offset fun e => { e with inflightLocalReads := (e.inflightLocalReads + 1) % 2 ^ 16 }

def endLocalRead (t : Table) (offset : Nat) : Table :=
  modifyEntry t offset fun e => { e with inflightLocalReads := e.inflightLocalReads - 1 }

def pickEvictVictim (t : Table) : Option Nat :=
  (walkBack t.links (fun idx => evictable (slot t idx).entry) t.slab.length t.links.tail).map fun idx =>
    (slot t idx).offset

/-! ## Slots -/

def Mapped (t : Table) (idx : Nat) : Prop := t.map.find (slot t idx).offset = some idx

instance (t idx) : Decidable (Mapped t idx) := by unfold Mapped; infer_instance

-- Every slot is found by one offset or free, and free once.
structure Slots (t : Table) : Prop where
  mapped : ∀ offset idx, t.map.find offset = some idx → idx < t.slab.length ∧ (slot t idx).offset = offset
  free : t.freeSlots.Nodup
  vacant : ∀ idx ∈ t.freeSlots, idx < t.slab.length ∧ ¬Mapped t idx
  cover : ∀ idx < t.slab.length, idx ∈ t.freeSlots ∨ Mapped t idx

variable {layout}

theorem mappedOf {t : Table} (slots : Slots t) {offset idx} (found : t.map.find offset = some idx) : Mapped t idx := by
  rw [Mapped, (slots.mapped offset idx found).2]
  exact found

theorem slotSet {t : Table} {idx} (inside : idx < t.slab.length) (s : Slot) (k : Nat) :
    slot { t with slab := t.slab.set idx s } k = if k = idx then s else slot t k := by
  unfold slot
  dsimp only
  rw [List.getElem?_set]
  by_cases same : k = idx
  · rw [if_pos same.symm, if_pos same, if_pos inside]
    rfl
  · rw [if_neg fun h => same h.symm, if_neg same]

theorem slotAppend (t : Table) (s : Slot) (k : Nat) :
    slot { t with slab := t.slab ++ [s] } k = if k = t.slab.length then s else slot t k := by
  unfold slot
  dsimp only
  by_cases same : k = t.slab.length
  · rw [if_pos same, same, List.getElem?_concat_length]
    rfl
  · rw [if_neg same]
    rcases Nat.lt_or_gt_of_ne same with less | more
    · rw [List.getElem?_append_left less]
    · rw [List.getElem?_eq_none (by simp; omega), List.getElem?_eq_none (by omega)]

-- Slots keep their place when only entries and links change.
theorem slotsKept {t after : Table} (slots : Slots t) (map : after.map = t.map) (free : after.freeSlots = t.freeSlots)
    (length : after.slab.length = t.slab.length) (offsets : ∀ idx, (slot after idx).offset = (slot t idx).offset) :
    Slots after := by
  have same : ∀ idx, Mapped after idx ↔ Mapped t idx := by
    intro idx
    rw [Mapped, Mapped, map, offsets]
  refine ⟨fun offset idx found => ?_, free ▸ slots.free, fun idx mem => ?_, fun idx inside => ?_⟩
  · rw [length, offsets]
    exact slots.mapped offset idx (map ▸ found)
  · rw [length, same]
    exact slots.vacant idx (free ▸ mem)
  · rw [free, same]
    exact slots.cover idx (length ▸ inside)

structure Created (t after : Table) (offset idx : Nat) (e : Entry) : Prop where
  slots : Slots after
  found : ∀ k, after.map.find k = if k = offset then some idx else t.map.find k
  here : slot after idx = ⟨offset, e⟩
  other : ∀ k, k ≠ idx → slot after k = slot t k
  links : ∀ xs, Holds t.links xs → (∀ k ∈ xs, Mapped t k) → Holds after.links xs
  outside : ∀ k ≠ offset, t.map.find k ≠ some idx
  same : ∀ k, t.map.find offset = some k → k = idx
  counters : after.residentBytes = t.residentBytes ∧ after.cap = t.cap ∧ after.generation = t.generation

def fresh (size : Nat) : Entry := ⟨size, .localUploaded, false, 0, 0, 0⟩

def entryAt (t : Table) (offset : Nat) : Option Entry := (t.map.find offset).map fun idx => (slot t idx).entry

theorem createdFound {t : Table} (slots : Slots t) {offset idx} (found : t.map.find offset = some idx) :
    Created t t offset idx (slot t idx).entry := by
  have place := (slots.mapped offset idx found).2
  refine ⟨slots, fun k => ?_, by rw [← place], fun _ _ => rfl, fun _ holds _ => holds, fun k other there => ?_,
    fun k there => Option.some.inj (there.symm.trans found), rfl, rfl, rfl⟩
  · split
    · rename_i same
      rw [same, found]
    · rfl
  · exact other ((slots.mapped k idx there).2.symm.trans place)

-- A slot that nothing finds takes the new entry.
theorem createdFresh {t after : Table} {offset idx size} (slots : Slots t) (none_ : t.map.find offset = none)
    (map : after.map = t.map.insert layout offset idx) (inside : idx < after.slab.length)
    (room : t.slab.length ≤ after.slab.length ∧ ∀ k < after.slab.length, k = idx ∨ k < t.slab.length)
    (slot_ : ∀ k, slot after k = if k = idx then ⟨offset, fresh size⟩ else slot t k)
    (links : after.links = clear t.links idx) (unmapped : ¬Mapped t idx) (nodup : after.freeSlots.Nodup)
    (free : ∀ k, k ∈ after.freeSlots ↔ k ∈ t.freeSlots ∧ k ≠ idx)
    (counters : after.residentBytes = t.residentBytes ∧ after.cap = t.cap ∧ after.generation = t.generation) :
    Created t after offset idx (fresh size) := by
  have found : ∀ k, after.map.find k = if k = offset then some idx else t.map.find k := by
    intro k
    rw [map]
    exact DenseMap.findInsert layout t.map offset idx k
  have outside : ∀ k, t.map.find k ≠ some idx := fun k there => unmapped (mappedOf slots there)
  have other : ∀ k, k ≠ idx → slot after k = slot t k := fun k away => by rw [slot_, if_neg away]
  have here : slot after idx = ⟨offset, fresh size⟩ := by rw [slot_, if_pos rfl]
  have same : ∀ k, k ≠ idx → (Mapped after k ↔ Mapped t k) := by
    intro k away
    rw [Mapped, Mapped, other k away, found]
    split
    · rename_i there
      rw [there, none_]
      simp [away.symm]
    · rfl
  refine ⟨⟨fun k i there => ?_, nodup, fun k mem => ?_, fun k less => ?_⟩, found, here, other,
    fun xs holds all => ?_, fun k _ => outside k, fun k there => ?_, counters⟩
  · rw [found] at there
    split at there
    · rename_i at_
      cases there
      rw [here, at_]
      exact ⟨inside, rfl⟩
    · have away : i ≠ idx := fun h => outside k (h ▸ there)
      obtain ⟨less, place⟩ := slots.mapped k i there
      rw [other i away]
      exact ⟨Nat.lt_of_lt_of_le less room.1, place⟩
  · obtain ⟨mem, away⟩ := (free k).mp mem
    obtain ⟨less, vacant⟩ := slots.vacant k mem
    exact ⟨Nat.lt_of_lt_of_le less room.1, fun mapped => vacant ((same k away).mp mapped)⟩
  · by_cases at_ : k = idx
    · refine Or.inr ?_
      rw [Mapped, at_, here, found, if_pos rfl]
    · rcases slots.cover k ((room.2 k less).resolve_left at_) with mem | mapped
      · exact Or.inl ((free k).mpr ⟨mem, at_⟩)
      · exact Or.inr ((same k at_).mpr mapped)
  · rw [links]
    exact holdsClear holds fun mem => unmapped (all idx mem)
  · rw [none_] at there
    cases there

theorem getOrCreateDone {t : Table} (slots : Slots t) (offset size : Nat) :
    Created t (getOrCreate layout t offset size).1 offset (getOrCreate layout t offset size).2
      ((entryAt t offset).getD (fresh size)) := by
  unfold getOrCreate entryAt
  cases found : t.map.find offset with
  | some idx => exact createdFound slots found
  | none =>
    dsimp only
    cases free : t.freeSlots with
    | cons idx rest =>
      dsimp only
      obtain ⟨inside, vacant⟩ := slots.vacant idx (free ▸ List.mem_cons_self)
      have nodup := slots.free
      rw [free] at nodup
      obtain ⟨away, nodup⟩ := List.nodup_cons.mp nodup
      refine createdFresh slots found rfl (by simpa using inside) ⟨by simp, fun k less => Or.inr (by simpa using less)⟩
        (fun k => ?_) rfl vacant nodup (fun k => ?_) ⟨rfl, rfl, rfl⟩
      · exact slotSet inside _ k
      · rw [free, List.mem_cons]
        constructor
        · intro mem
          exact ⟨Or.inr mem, fun same => away (same ▸ mem)⟩
        · rintro ⟨either, other⟩
          exact either.resolve_left other
    | nil =>
      dsimp only
      have unmapped : ¬Mapped t t.slab.length := fun mapped =>
        Nat.lt_irrefl _ (slots.mapped _ _ mapped).1
      refine createdFresh slots found rfl (by simp) ⟨by simp, fun k less => ?_⟩ (fun k => ?_) rfl unmapped ?_
        (fun k => ?_) ⟨rfl, rfl, rfl⟩
      · simp only [List.length_append, List.length_singleton] at less
        omega
      · exact slotAppend t _ k
      · exact List.nodup_nil
      · simp [free]

/-! ## The table of offsets that the slab stands for -/

structure Represents (t : Table) (r : Residency) (xs : List Nat) : Prop where
  slots : Slots t
  links : Holds t.links xs
  listed : ∀ idx, idx ∈ xs ↔ Mapped t idx ∧ (slot t idx).entry.state = .localUploaded
  found : ∀ offset, BlobResidency.find r offset = entryAt t offset
  lru : r.lru = xs.map fun idx => (slot t idx).offset
  bytes : r.residentBytes = t.residentBytes
  cap : r.cap = t.cap
  generation : r.generation = t.generation

theorem emptyRepresents : Represents empty BlobResidency.empty [] := by
  have absent : ∀ offset, empty.map.find offset = none := fun _ => rfl
  refine ⟨⟨fun offset idx found => ?_, List.nodup_nil, fun _ mem => ?_, fun _ less => ?_⟩, holdsEmpty,
    fun idx => ⟨fun mem => ?_, fun both => ?_⟩, fun _ => rfl, rfl, rfl, rfl, rfl⟩
  · rw [absent] at found
    cases found
  · cases mem
  · cases less
  · cases mem
  · cases both.1

theorem countersRepresents {t r xs} (rep : Represents t r xs) (bytes generation : Nat) :
    Represents { t with residentBytes := bytes, generation := generation }
      { r with residentBytes := bytes, generation := generation } xs :=
  ⟨⟨rep.slots.mapped, rep.slots.free, rep.slots.vacant, rep.slots.cover⟩, rep.links, rep.listed, rep.found, rep.lru, rfl,
    rep.cap, rfl⟩

theorem listedOffsets {t r xs} (rep : Represents t r xs) : r.lru.Nodup := by
  rw [rep.lru]
  refine List.Nodup.map_on (fun k mem j there same => ?_) rep.links.nodup
  have one : t.map.find (slot t k).offset = some k := ((rep.listed k).mp mem).1
  have two : t.map.find (slot t j).offset = some j := ((rep.listed j).mp there).1
  rw [same, two] at one
  exact (Option.some.inj one).symm

theorem lruErased {t created r xs offset idx e} (rep : Represents t r xs) (made : Created t created offset idx e) :
    r.lru.erase offset = (xs.filter (· ≠ idx)).map fun k => (slot t k).offset := by
  have nodup := listedOffsets rep
  rw [nodup.erase_eq_filter, rep.lru, List.filter_map]
  refine congrArg _ (List.filter_congr fun k mem => ?_)
  have mapped : t.map.find (slot t k).offset = some k := ((rep.listed k).mp mem).1
  have same : (slot t k).offset = offset ↔ k = idx := by
    constructor
    · intro here
      exact made.same k (here ▸ mapped)
    · rintro rfl
      by_contra away
      exact made.outside _ away mapped
  rw [Bool.eq_iff_iff]
  simp [same]

-- One entry is written, and the LRU with it.
theorem writtenRepresents {t created after : Table} {r r' : Residency} {xs xs' : List Nat} {offset idx e marked}
    (rep : Represents t r xs) (made : Created t created offset idx e) (map : after.map = created.map)
    (slab : after.slab = (setEntry created idx marked).slab) (free : after.freeSlots = created.freeSlots)
    (links : Holds after.links xs')
    (members : ∀ k, k ∈ xs' ↔ if k = idx then marked.state = .localUploaded else k ∈ xs)
    (found : ∀ k, BlobResidency.find r' k = if k = offset then some marked else BlobResidency.find r k)
    (lru : r'.lru = xs'.map fun k => if k = idx then offset else (slot t k).offset)
    (counters : r'.residentBytes = after.residentBytes ∧ r'.cap = after.cap ∧ r'.generation = after.generation) :
    Represents after r' xs' := by
  have here : created.map.find offset = some idx := by rw [made.found, if_pos rfl]
  have inside := (made.slots.mapped offset idx here).1
  have slot_ : ∀ k, slot after k = if k = idx then ⟨offset, marked⟩ else slot t k := by
    intro k
    have same : slot after k = slot (setEntry created idx marked) k := by rw [slot, slot, slab]
    rw [same, setEntry, slotSet inside, made.here]
    split
    · rfl
    · rename_i away
      exact made.other k away
  have mapped : ∀ k, Mapped after k ↔ k = idx ∨ k ≠ idx ∧ Mapped t k := by
    intro k
    rw [Mapped, map, slot_]
    by_cases same : k = idx
    · rw [if_pos same, same, here]
      simp
    · rw [if_neg same, made.found]
      split
      · rename_i at_
        constructor
        · intro there
          exact absurd (Option.some.inj there).symm same
        · intro either
          have one : t.map.find (slot t k).offset = some k := (either.resolve_left same).2
          exact absurd (made.same k (at_ ▸ one)) same
      · exact ⟨fun there => Or.inr ⟨same, there⟩, fun either => (either.resolve_left same).2⟩
  refine ⟨?_, links, fun k => ?_, fun k => ?_, ?_, counters.1, counters.2.1, counters.2.2⟩
  · refine slotsKept made.slots map free (by rw [slab]; exact List.length_set) fun k => ?_
    rw [slot_]
    split
    · rename_i same
      rw [same, made.here]
    · rename_i away
      rw [made.other k away]
  · rw [members, mapped, slot_]
    by_cases same : k = idx
    · rw [if_pos same, if_pos same]
      exact ⟨fun local_ => ⟨Or.inl same, local_⟩, fun both => both.2⟩
    · rw [if_neg same, if_neg same, rep.listed]
      exact ⟨fun both => ⟨Or.inr ⟨same, both.1⟩, both.2⟩, fun both => ⟨(both.1.resolve_left same).2, both.2⟩⟩
  · rw [found, entryAt, map, made.found]
    split
    · rw [Option.map_some, slot_, if_pos rfl]
    · rename_i other
      rw [rep.found, entryAt]
      refine Option.map_congr fun i there => ?_
      have away : i ≠ idx := fun same => made.outside k other (same ▸ there)
      rw [slot_, if_neg away]
  · rw [lru]
    refine List.map_congr_left fun k _ => ?_
    rw [slot_]
    split
    · rfl
    · rfl

theorem filteredLru {t : Table} {xs : List Nat} {idx offset : Nat} : (xs.filter (· ≠ idx)).map (fun k => (slot t k).offset) =
    (xs.filter (· ≠ idx)).map fun k => if k = idx then offset else (slot t k).offset := by
  refine List.map_congr_left fun k mem => ?_
  have away : k ≠ idx := by simpa using (List.mem_filter.mp mem).2
  rw [if_neg away]

-- The entry leaves the LRU, or stays out of it.
theorem removedRepresents {t created after : Table} {r r' : Residency} {xs : List Nat} {offset idx e marked}
    (rep : Represents t r xs) (made : Created t created offset idx e) (map : after.map = created.map)
    (slab : after.slab = (setEntry created idx marked).slab) (free : after.freeSlots = created.freeSlots)
    (links : after.links = unlink created.links idx) (remote : marked.state ≠ .localUploaded)
    (found : ∀ k, BlobResidency.find r' k = if k = offset then some marked else BlobResidency.find r k)
    (lru : r'.lru = r.lru.erase offset)
    (counters : r'.residentBytes = after.residentBytes ∧ r'.cap = after.cap ∧ r'.generation = after.generation) :
    Represents after r' (xs.filter (· ≠ idx)) := by
  have holds := made.links xs rep.links fun k mem => ((rep.listed k).mp mem).1
  refine writtenRepresents rep made map slab free (links ▸ holdsUnlink idx holds) (fun k => ?_) found ?_ counters
  · rw [List.mem_filter]
    split
    · rename_i same
      simp [same, remote]
    · rename_i away
      simp [away]
  · rw [lru, lruErased rep made, filteredLru]

theorem pushedRepresents {t created after : Table} {r r' : Residency} {xs : List Nat} {offset idx e marked}
    (rep : Represents t r xs) (made : Created t created offset idx e) (map : after.map = created.map)
    (slab : after.slab = (setEntry created idx marked).slab) (free : after.freeSlots = created.freeSlots)
    (links : after.links = pushFront (unlink created.links idx) idx) (local_ : marked.state = .localUploaded)
    (found : ∀ k, BlobResidency.find r' k = if k = offset then some marked else BlobResidency.find r k)
    (lru : r'.lru = offset :: r.lru.erase offset)
    (counters : r'.residentBytes = after.residentBytes ∧ r'.cap = after.cap ∧ r'.generation = after.generation) :
    Represents after r' (idx :: xs.filter (· ≠ idx)) := by
  have holds := made.links xs rep.links fun k mem => ((rep.listed k).mp mem).1
  have away : idx ∉ xs.filter (· ≠ idx) := by simp
  have pushed := holdsPush (holdsUnlink idx holds) away
  refine writtenRepresents rep made map slab free (links ▸ pushed) (fun k => ?_) found ?_ counters
  · rw [List.mem_cons, List.mem_filter]
    split
    · rename_i same
      simp [same, local_]
    · rename_i away
      simp [away]
  · rw [lru, lruErased rep made, filteredLru, List.map_cons, if_pos rfl]

-- The LRU is left alone.
theorem keptRepresents {t created after : Table} {r r' : Residency} {xs : List Nat} {offset idx e marked}
    (rep : Represents t r xs) (made : Created t created offset idx e) (map : after.map = created.map)
    (slab : after.slab = (setEntry created idx marked).slab) (free : after.freeSlots = created.freeSlots)
    (links : after.links = created.links) (own : idx ∈ xs ↔ marked.state = .localUploaded)
    (found : ∀ k, BlobResidency.find r' k = if k = offset then some marked else BlobResidency.find r k)
    (lru : r'.lru = r.lru)
    (counters : r'.residentBytes = after.residentBytes ∧ r'.cap = after.cap ∧ r'.generation = after.generation) :
    Represents after r' xs := by
  have holds := made.links xs rep.links fun k mem => ((rep.listed k).mp mem).1
  refine writtenRepresents rep made map slab free (links ▸ holds) (fun k => ?_) found ?_ counters
  · split
    · rename_i same
      rw [same]
      exact own
    · rfl
  · rw [lru, rep.lru]
    refine List.map_congr_left fun k mem => ?_
    split
    · rename_i same
      have mapped : t.map.find (slot t k).offset = some k := ((rep.listed k).mp mem).1
      by_contra away
      exact made.outside _ away (same ▸ mapped)
    · rfl

/-! ## Operations -/

variable {entries : Layout Nat Entry}

theorem createdEntry {t r xs created offset size idx}
    (rep : Represents t r xs) (made : Created t created offset idx ((entryAt t offset).getD (fresh size))) :
    (slot created idx).entry = BlobResidency.getOrCreate r offset size := by
  rw [made.here, BlobResidency.getOrCreate, rep.found]
  rfl

theorem createdLocal {t r xs created offset size idx} (rep : Represents t r xs)
    (made : Created t created offset idx ((entryAt t offset).getD (fresh size)))
    (remote : (BlobResidency.getOrCreate r offset size).state ≠ .localUploaded) : idx ∉ xs := by
  intro mem
  obtain ⟨mapped, local_⟩ := (rep.listed idx).mp mem
  refine remote ?_
  have at_ : (slot t idx).offset = offset := by
    by_contra away
    exact made.outside _ away mapped
  have found : t.map.find offset = some idx := at_ ▸ mapped
  rw [BlobResidency.getOrCreate, rep.found, entryAt, found]
  exact local_

theorem uploadedRepresents {t r xs} (rep : Represents t r xs) (offset size remoteId : Nat) :
    (∃ xs', Represents (markUploaded layout t offset size remoteId).1
      (BlobResidency.markUploaded entries r offset size remoteId).1 xs') ∧
      (markUploaded layout t offset size remoteId).2 = (BlobResidency.markUploaded entries r offset size remoteId).2 := by
  have made := @getOrCreateDone layout t rep.slots offset size
  unfold markUploaded
  generalize getOrCreate layout t offset size = pair at *
  obtain ⟨created, idx⟩ := pair
  dsimp only at *
  have entry := createdEntry rep made
  obtain ⟨bytes, cap, generation⟩ := made.counters
  have counters : r.residentBytes = created.residentBytes ∧ r.cap = created.cap ∧ r.generation = created.generation :=
    ⟨rep.bytes.trans bytes.symm, rep.cap.trans cap.symm, rep.generation.trans generation.symm⟩
  rw [entry, ← counters.2.2]
  unfold BlobResidency.markUploaded
  dsimp only
  refine ⟨?_, rfl⟩
  by_cases local_ : shipped (BlobResidency.getOrCreate r offset size).state = .localUploaded
  · rw [if_pos local_, if_pos local_]
    refine ⟨_, pushedRepresents rep made rfl rfl rfl rfl ?_ (fun k => ?_) rfl counters⟩
    · exact local_
    · exact DenseMap.findInsert entries r.map offset _ k
  · rw [if_neg local_, if_neg local_]
    have away : idx ∉ xs := by
      refine createdLocal rep made fun here => local_ ?_
      rw [here]
      rfl
    refine ⟨_, keptRepresents rep made rfl rfl rfl rfl ⟨fun mem => absurd mem away, fun here => ?_⟩ (fun k => ?_) rfl
      counters⟩
    · exact absurd here local_
    · exact DenseMap.findInsert entries r.map offset _ k

theorem spilledRepresents {t r xs} (rep : Represents t r xs) (state : State) (remote : state ≠ .localUploaded)
    (offset size remoteId : Nat) : ∃ xs', Represents (markSpilledAs layout state t offset size remoteId)
      (BlobResidency.markSpilledAs entries state r offset size remoteId) xs' := by
  have made := @getOrCreateDone layout t rep.slots offset size
  unfold markSpilledAs
  generalize getOrCreate layout t offset size = pair at *
  obtain ⟨created, idx⟩ := pair
  dsimp only at *
  have entry := createdEntry rep made
  obtain ⟨bytes, cap, generation⟩ := made.counters
  have counters : r.residentBytes = created.residentBytes ∧ r.cap = created.cap ∧ r.generation = created.generation :=
    ⟨rep.bytes.trans bytes.symm, rep.cap.trans cap.symm, rep.generation.trans generation.symm⟩
  rw [entry]
  refine ⟨_, removedRepresents rep made rfl rfl rfl rfl ?_ (fun k => ?_) rfl counters⟩
  · exact remote
  · rw [← counters.2.2]
    exact DenseMap.findInsert entries r.map offset _ k

theorem assignedFind {t r xs} (rep : Represents t r xs) {offset idx} (found : t.map.find offset = some idx) (e : Entry)
    (k : Nat) : (r.map.assign offset e).find k = if k = offset then some e else BlobResidency.find r k := by
  have there := rep.found offset
  rw [entryAt, found] at there
  exact DenseMap.findAssign there e k

theorem foundEntry {t r xs} (rep : Represents t r xs) {offset idx} (found : t.map.find offset = some idx) :
    BlobResidency.find r offset = some (slot t idx).entry := by
  rw [rep.found, entryAt, found]
  rfl

theorem absentEntry {t r xs} (rep : Represents t r xs) {offset} (none_ : t.map.find offset = none) :
    BlobResidency.find r offset = none := by
  rw [rep.found, entryAt, none_]
  rfl

-- Two answers that agree on success, with the states they leave.
def Agrees (a : Option Table) (b : Option Residency) : Prop :=
  (a = none ∧ b = none) ∨ ∃ t r xs, a = some t ∧ b = some r ∧ Represents t r xs

theorem evictedRepresents {t r xs} (rep : Represents t r xs) (offset : Nat) :
    Agrees (evict t offset) (BlobResidency.evict r offset) := by
  unfold evict BlobResidency.evict
  cases found : t.map.find offset with
  | none =>
    rw [absentEntry rep found]
    exact Or.inl ⟨rfl, rfl⟩
  | some idx =>
    rw [foundEntry rep found]
    dsimp only
    split
    · refine Or.inr ⟨_, _, _, rfl, rfl, removedRepresents rep (createdFound rep.slots found) rfl rfl rfl rfl ?_
        (assignedFind rep found _) rfl ⟨?_, rep.cap, rep.generation⟩⟩
      · exact State.noConfusion
      · exact congrArg (· - _) rep.bytes
    · exact Or.inl ⟨rfl, rfl⟩

theorem droppedRepresents {t r xs} (rep : Represents t r xs) (offset : Nat) :
    Agrees (dropSpilledLocal t offset) (BlobResidency.dropSpilledLocal r offset) := by
  unfold dropSpilledLocal BlobResidency.dropSpilledLocal
  cases found : t.map.find offset with
  | none =>
    rw [absentEntry rep found]
    exact Or.inl ⟨rfl, rfl⟩
  | some idx =>
    rw [foundEntry rep found]
    dsimp only
    split
    · rename_i allowed
      simp only [Bool.and_eq_true, decide_eq_true_eq] at allowed
      have away : idx ∉ xs := by
        intro mem
        exact absurd (allowed.1.symm.trans ((rep.listed idx).mp mem).2) State.noConfusion
      refine Or.inr ⟨_, _, _, rfl, rfl, keptRepresents rep (createdFound rep.slots found) rfl rfl rfl rfl
        ⟨fun mem => absurd mem away, fun here => State.noConfusion here⟩ (assignedFind rep found _) rfl
        ⟨?_, rep.cap, rep.generation⟩⟩
      exact congrArg (· - _) rep.bytes
    · exact Or.inl ⟨rfl, rfl⟩

theorem modifiedRepresents {t : Table} {r r' : Residency} {xs} (rep : Represents t r xs) {offset idx} (f : Entry → Entry)
    (found : t.map.find offset = some idx) (state : ∀ e, (f e).state = e.state)
    (same : r' = { r with map := r.map.assign offset (f (slot t idx).entry) }) :
    Represents (modifyEntry t offset f) r' xs := by
  rw [modifyEntry, found, same]
  have made := createdFound rep.slots found
  refine keptRepresents rep made rfl rfl rfl rfl ?_ (assignedFind rep found _) rfl ⟨rep.bytes, rep.cap, rep.generation⟩
  rw [state, rep.listed]
  exact ⟨fun both => both.2, fun here => ⟨mappedOf rep.slots found, here⟩⟩

theorem beginRepresents {t r xs} (rep : Represents t r xs) (offset : Nat) :
    Represents (beginLocalRead t offset) (BlobResidency.beginLocalRead r offset) xs := by
  unfold beginLocalRead BlobResidency.beginLocalRead
  cases found : t.map.find offset with
  | none =>
    rw [absentEntry rep found, modifyEntry, found]
    exact rep
  | some idx =>
    rw [foundEntry rep found]
    exact modifiedRepresents rep _ found (fun _ => rfl) rfl

theorem endRepresents {t r xs} (rep : Represents t r xs) (offset : Nat) :
    Represents (endLocalRead t offset) (BlobResidency.endLocalRead r offset) xs := by
  unfold endLocalRead BlobResidency.endLocalRead
  cases found : t.map.find offset with
  | none =>
    rw [absentEntry rep found, modifyEntry, found]
    exact rep
  | some idx =>
    rw [foundEntry rep found]
    exact modifiedRepresents rep _ found (fun _ => rfl) rfl

theorem touchedRepresents {t r xs} (rep : Represents t r xs) (offset : Nat) :
    ∃ xs', Represents (touch t offset) (BlobResidency.touch r offset) xs' := by
  unfold touch BlobResidency.touch
  cases found : t.map.find offset with
  | none =>
    rw [absentEntry rep found]
    exact ⟨xs, rep⟩
  | some idx =>
    rw [foundEntry rep found]
    dsimp only
    split
    · rename_i local_
      have made := createdFound rep.slots found
      have inside := (rep.slots.mapped offset idx found).1
      have same : t.slab = (setEntry t idx (slot t idx).entry).slab := by
        unfold setEntry slot
        rw [List.getElem?_eq_getElem inside]
        exact (List.set_getElem_self inside).symm
      refine ⟨_, pushedRepresents rep made rfl same rfl rfl local_ (fun k => ?_) rfl
        ⟨rep.bytes, rep.cap, rep.generation⟩⟩
      split
      · rename_i at_
        rw [at_]
        exact foundEntry rep found
      · rfl
    · exact ⟨xs, rep⟩

structure Erased (t after : Table) (offset idx : Nat) : Prop where
  found : ∀ k, after.map.find k = if k = offset then none else t.map.find k
  slot : ∀ k, slot after k = if k = idx then blank else slot t k
  length : after.slab.length = t.slab.length
  free : after.freeSlots = idx :: t.freeSlots

theorem erasedMapped {t after offset idx} (slots : Slots t) (found : t.map.find offset = some idx)
    (gone : Erased t after offset idx) (k : Nat) : Mapped after k ↔ k ≠ idx ∧ Mapped t k := by
  obtain ⟨_, place⟩ := slots.mapped offset idx found
  rw [Mapped, gone.slot, gone.found]
  by_cases same : k = idx
  · rw [if_pos same, same]
    refine ⟨fun there => ?_, fun both => absurd rfl both.1⟩
    split at there
    · cases there
    · rename_i away
      exact absurd ((slots.mapped _ _ there).2.symm.trans place) away
  · rw [if_neg same]
    refine ⟨fun there => ⟨same, ?_⟩, fun both => ?_⟩
    · split at there
      · cases there
      · exact there
    · have mapped : t.map.find (slot t k).offset = some k := both.2
      rw [if_neg]
      · exact mapped
      · intro at_
        rw [at_, found] at mapped
        exact same (Option.some.inj mapped).symm

theorem erasedSlots {t after offset idx} (slots : Slots t) (found : t.map.find offset = some idx)
    (gone : Erased t after offset idx) : Slots after := by
  obtain ⟨inside, place⟩ := slots.mapped offset idx found
  have mapped := erasedMapped slots found gone
  refine ⟨fun k i there => ?_, ?_, fun k mem => ?_, fun k less => ?_⟩
  · rw [gone.found] at there
    split at there
    · cases there
    · rename_i away
      obtain ⟨less, here⟩ := slots.mapped k i there
      have apart : i ≠ idx := fun same => away (here.symm.trans (same ▸ place))
      rw [gone.length, gone.slot, if_neg apart]
      exact ⟨less, here⟩
  · rw [gone.free]
    exact List.nodup_cons.mpr ⟨fun mem => (slots.vacant idx mem).2 (mappedOf slots found), slots.free⟩
  · rw [gone.length, mapped]
    rw [gone.free] at mem
    rcases List.mem_cons.mp mem with same | later
    · exact ⟨same ▸ inside, fun both => both.1 same⟩
    · obtain ⟨less, vacant⟩ := slots.vacant k later
      exact ⟨less, fun both => vacant both.2⟩
  · rw [gone.length] at less
    rw [gone.free, mapped]
    by_cases same : k = idx
    · exact Or.inl (same ▸ List.mem_cons_self)
    · rcases slots.cover k less with mem | there
      · exact Or.inl (List.mem_cons_of_mem _ mem)
      · exact Or.inr ⟨same, there⟩

theorem erasedRepresents {t after : Table} {r r' : Residency} {xs : List Nat} {offset idx}
    (rep : Represents t r xs) (found : t.map.find offset = some idx) (gone : Erased t after offset idx)
    (links : after.links = clear (unlink t.links idx) idx)
    (left : ∀ k, BlobResidency.find r' k = if k = offset then none else BlobResidency.find r k)
    (lru : r'.lru = r.lru.erase offset)
    (counters : r'.residentBytes = after.residentBytes ∧ r'.cap = after.cap ∧ r'.generation = after.generation) :
    Represents after r' (xs.filter (· ≠ idx)) := by
  obtain ⟨_, place⟩ := rep.slots.mapped offset idx found
  have mapped := erasedMapped rep.slots found gone
  have away : idx ∉ xs.filter (· ≠ idx) := by simp
  refine ⟨erasedSlots rep.slots found gone, links ▸ holdsClear (holdsUnlink idx rep.links) away, fun k => ?_,
    fun k => ?_, ?_, counters.1, counters.2.1, counters.2.2⟩
  · rw [List.mem_filter, rep.listed, mapped, gone.slot]
    by_cases same : k = idx
    · simp [same]
    · simp [same]
  · rw [left, entryAt, gone.found]
    split
    · rfl
    · rename_i other
      rw [rep.found, entryAt]
      refine Option.map_congr fun i there => ?_
      have apart : i ≠ idx := fun same => other ((rep.slots.mapped k i there).2.symm.trans (same ▸ place))
      rw [gone.slot, if_neg apart]
  · rw [lru, lruErased rep (createdFound rep.slots found)]
    refine List.map_congr_left fun k mem => ?_
    have apart : k ≠ idx := by simpa using (List.mem_filter.mp mem).2
    rw [gone.slot, if_neg apart]

theorem forgottenRepresents {t r xs} (rep : Represents t r xs) (offset : Nat) :
    (forget layout t offset = none ∧ BlobResidency.forget entries r offset = none) ∨
      ∃ t' r' xs' f, forget layout t offset = some (t', f) ∧ BlobResidency.forget entries r offset = some (r', f) ∧
        Represents t' r' xs' := by
  unfold forget BlobResidency.forget
  cases found : t.map.find offset with
  | none =>
    rw [absentEntry rep found]
    exact Or.inl ⟨rfl, rfl⟩
  | some idx =>
    rw [foundEntry rep found]
    have inside := (rep.slots.mapped offset idx found).1
    have erased : ∀ k, (t.map.erase layout offset).find k = if k = offset then none else t.map.find k :=
      fun k => DenseMap.findErase offset k
    have left : ∀ k, (r.map.erase entries offset).find k = if k = offset then none else BlobResidency.find r k :=
      fun k => DenseMap.findErase offset k
    refine Or.inr ⟨_, _, xs.filter (· ≠ idx), _, rfl, rfl, ?_⟩
    by_cases local_ : (slot t idx).entry.state.hasLocalBytes = true
    · rw [if_pos local_, if_pos local_]
      refine erasedRepresents rep found ⟨erased, slotSet inside blank, List.length_set, rfl⟩ rfl left rfl
        ⟨?_, rep.cap, rep.generation⟩
      exact congrArg (· - _) rep.bytes
    · rw [if_neg local_, if_neg local_]
      exact erasedRepresents rep found ⟨erased, slotSet inside blank, List.length_set, rfl⟩ rfl left rfl
        ⟨rep.bytes, rep.cap, rep.generation⟩

theorem settledSlab (entries : List (Nat × Nat)) (slab : List Slot) (generation k : Nat) :
    (entries.foldl (fun slab e => slab.modify e.2 (settleSlot generation)) slab)[k]? =
      slab[k]?.map fun s => if k ∈ entries.map Prod.snd then settleSlot generation s else s := by
  have twice : ∀ s, settleSlot generation (settleSlot generation s) = settleSlot generation s := by
    intro s
    unfold settleSlot settleDurable
    dsimp only
    split
    · simp
    · rfl
  induction entries generalizing slab with
  | nil => simp
  | cons e rest ih =>
    rw [List.foldl_cons, ih, List.getElem?_modify]
    cases slab[k]? with
    | none => rfl
    | some s =>
      by_cases same : e.2 = k
      · simp [same, twice]
      · have other : ¬k = e.2 := fun h => same h.symm
        have step : k ∈ (e :: rest).map Prod.snd ↔ k ∈ rest.map Prod.snd := by
          rw [List.map_cons, List.mem_cons, or_iff_right other]
        simp only [same, if_false, Option.map_eq_map, Option.map_some]
        exact congrArg some (if_congr step.symm rfl rfl)

theorem committedSlot {t : Table} (slots : Slots t) (generation k : Nat) :
    slot (commitDurable t generation) k = if Mapped t k then settleSlot generation (slot t k) else slot t k := by
  have listed : k ∈ t.map.entries.map Prod.snd ↔ Mapped t k := by
    rw [List.mem_map]
    constructor
    · rintro ⟨⟨offset, idx⟩, mem, rfl⟩
      exact mappedOf slots (DenseMap.findMem.mpr mem)
    · exact fun mapped => ⟨_, DenseMap.findMem.mp mapped, rfl⟩
  rw [slot, commitDurable, settledSlab, slot]
  cases there : t.slab[k]? with
  | none =>
    have away : ¬Mapped t k := by
      intro mapped
      have less := (slots.mapped _ _ mapped).1
      rw [List.getElem?_eq_none_iff] at there
      omega
    rw [if_neg away]
    rfl
  | some s =>
    rw [Option.map_some, Option.getD_some, Option.getD_some]
    exact if_congr listed rfl rfl

theorem committedRepresents {t r xs} (rep : Represents t r xs) (generation : Nat) :
    Represents (commitDurable t generation) (BlobResidency.commitDurable r generation) xs := by
  have slot_ := committedSlot rep.slots generation
  have offset : ∀ k, (slot (commitDurable t generation) k).offset = (slot t k).offset := by
    intro k
    rw [slot_]
    split
    · rfl
    · rfl
  have state : ∀ e, (settleDurable generation e).state = e.state := by
    intro e
    unfold settleDurable
    split
    · rfl
    · rfl
  have mapped : ∀ k, Mapped (commitDurable t generation) k ↔ Mapped t k := by
    intro k
    rw [Mapped, offset]
    rfl
  have length : (commitDurable t generation).slab.length = t.slab.length := by
    unfold commitDurable
    dsimp only
    generalize t.map.entries = entries
    generalize t.slab = slab
    induction entries generalizing slab with
    | nil => rfl
    | cons e rest ih => rw [List.foldl_cons, ih, List.length_modify]
  refine ⟨slotsKept rep.slots rfl rfl length offset, rep.links, fun k => ?_, fun k => ?_, ?_, rep.bytes, rep.cap,
    rep.generation⟩
  · rw [rep.listed, mapped, slot_]
    refine and_congr_right fun here => ?_
    rw [if_pos here, settleSlot, state]
  · have there : BlobResidency.find (BlobResidency.commitDurable r generation) k =
        (BlobResidency.find r k).map (settleDurable generation) := DenseMap.findMapValues _ _ _
    rw [there, rep.found, entryAt, entryAt, Option.map_map]
    refine Option.map_congr fun i found => ?_
    rw [slot_, if_pos (mappedOf rep.slots found)]
    rfl
  · show r.lru = _
    rw [rep.lru]
    exact List.map_congr_left fun k _ => (offset k).symm

theorem pickAgrees {t r xs} (rep : Represents t r xs) : pickEvictVictim t = BlobResidency.pickEvictVictim r := by
  have room : xs.length ≤ t.slab.length := by
    have inside : xs ⊆ List.range t.slab.length := by
      intro k mem
      exact List.mem_range.mpr (rep.slots.mapped _ k ((rep.listed k).mp mem).1).1
    have short := (List.subperm_of_subset rep.links.nodup inside).length_le
    rwa [List.length_range] at short
  rw [pickEvictVictim, walkTail rep.links _ room, BlobResidency.pickEvictVictim, rep.lru, ← List.map_reverse,
    List.find?_map]
  refine congrArg (Option.map _) (List.find?_congr fun k mem => ?_)
  have mapped := ((rep.listed k).mp (List.mem_reverse.mp mem)).1
  rw [Function.comp_apply, foundEntry rep mapped]
  rfl

end Dewfall.ResidencySlab
