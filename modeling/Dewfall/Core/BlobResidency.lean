import Dewfall.General.DenseMap
import Dewfall.General.Words

/-! The residency table of the cache tier: which data blobs also exist remotely, and which local
bytes may be reclaimed. Blobs without an entry are local only. Slab slots are left out: entries are
keyed by offset, and the LRU is the list of its offsets from the most recently used. -/
namespace Dewfall.BlobResidency
open General

inductive State where
  | localUploaded
  | remoteUploaded
  | localSpilled
  | remoteSpilled
  deriving DecidableEq, Repr

def State.spilled : State → Bool
  | .localSpilled | .remoteSpilled => true
  | .localUploaded | .remoteUploaded => false

def State.hasLocalBytes : State → Bool
  | .localUploaded | .localSpilled => true
  | .remoteUploaded | .remoteSpilled => false

structure Entry where
  size : Nat
  state : State
  durable : Bool
  inflightLocalReads : Nat
  markedGeneration : Nat
  remoteId : Nat
  deriving DecidableEq, Repr

structure Residency where
  map : DenseMap Nat Entry
  lru : List Nat
  residentBytes : Nat
  cap : Nat
  generation : Nat

def empty : Residency := ⟨DenseMap.empty, [], 0, 0, 1⟩

def find (r : Residency) (offset : Nat) : Option Entry := r.map.find offset

def accountAlloc (r : Residency) (bytes : Nat) : Residency :=
  { r with residentBytes := u64 (r.residentBytes + bytes) }

def accountFreed (r : Residency) (bytes : Nat) : Residency :=
  { r with residentBytes := r.residentBytes - bytes }

def overSoft (r : Residency) : Bool := r.cap ≠ 0 && r.cap - r.cap / 8 < r.residentBytes

def overHard (r : Residency) (incoming : Nat) : Bool :=
  r.cap ≠ 0 && r.cap < u64 (r.residentBytes + incoming)

def getOrCreate (r : Residency) (offset size : Nat) : Entry :=
  (find r offset).getD ⟨size, .localUploaded, false, 0, 0, 0⟩

/-! ## Remote facts -/

variable (layout : Layout Nat Entry)

def shipped : State → State
  | .localSpilled => .localUploaded
  | .remoteSpilled => .remoteUploaded
  | state => state

def spillReference (e : Entry) : Nat := if e.state.spilled then e.remoteId else 0

def markUploaded (r : Residency) (offset size remoteId : Nat) : Residency × Nat :=
  let e := getOrCreate r offset size
  let marked := { e with
    state := shipped e.state
    remoteId := remoteId
    durable := false
    markedGeneration := r.generation }
  ({ r with
      map := r.map.insert layout offset marked
      lru := if marked.state = .localUploaded then offset :: r.lru.erase offset else r.lru },
    spillReference e)

-- `mark_spilled` and `mark_spilled_remote` differ in the state they leave only.
def markSpilledAs (state : State) (r : Residency) (offset size remoteId : Nat) : Residency :=
  { r with
    map := r.map.insert layout offset { getOrCreate r offset size with
      state := state
      remoteId := remoteId
      durable := false
      markedGeneration := r.generation }
    lru := r.lru.erase offset }

def markSpilled := markSpilledAs layout .localSpilled
def markSpilledRemote := markSpilledAs layout .remoteSpilled

/-! ## The checkpoint barrier -/

def serializeGeneration (r : Residency) : Residency × Nat :=
  ({ r with generation := u32 (r.generation + 1) }, r.generation)

def settleDurable (generation : Nat) (e : Entry) : Entry :=
  if !e.durable && e.markedGeneration ≤ generation then { e with durable := true } else e

def commitDurable (r : Residency) (generation : Nat) : Residency :=
  { r with map := r.map.mapValues (settleDurable generation) }

/-! ## Destructive transitions -/

def evictable (e : Entry) : Bool := e.durable && e.inflightLocalReads = 0

def evict (r : Residency) (offset : Nat) : Option Residency :=
  match find r offset with
  | none => none
  | some e =>
    if e.state = .localUploaded && evictable e then some (accountFreed { r with
      map := r.map.assign offset { e with state := .remoteUploaded }
      lru := r.lru.erase offset } e.size)
    else none

def dropSpilledLocal (r : Residency) (offset : Nat) : Option Residency :=
  match find r offset with
  | none => none
  | some e =>
    if e.state = .localSpilled && evictable e then some (accountFreed { r with
      map := r.map.assign offset { e with state := .remoteSpilled } } e.size)
    else none

structure Forgotten where
  punchLocal : Bool
  spilled : Bool
  remoteId : Nat
  deriving DecidableEq, Repr

-- `none` when the blob has no entry.
def forget (r : Residency) (offset : Nat) : Option (Residency × Forgotten) :=
  match find r offset with
  | none => none
  | some e =>
    let dropped := { r with map := r.map.erase layout offset, lru := r.lru.erase offset }
    some (if e.state.hasLocalBytes then accountFreed dropped e.size else dropped,
      ⟨e.state.hasLocalBytes && e.inflightLocalReads = 0, e.state.spilled, e.remoteId⟩)

/-! ## Reads and eviction -/

def touch (r : Residency) (offset : Nat) : Residency :=
  match find r offset with
  | some e => if e.state = .localUploaded then { r with lru := offset :: r.lru.erase offset } else r
  | none => r

-- The counter has 16 bits.
def beginLocalRead (r : Residency) (offset : Nat) : Residency :=
  match find r offset with
  | some e =>
    let reading := { e with inflightLocalReads := (e.inflightLocalReads + 1) % 2 ^ 16 }
    { r with map := r.map.assign offset reading }
  | none => r

def endLocalRead (r : Residency) (offset : Nat) : Residency :=
  match find r offset with
  | some e =>
    let ended := { e with inflightLocalReads := e.inflightLocalReads - 1 }
    { r with map := r.map.assign offset ended }
  | none => r

def pickEvictVictim (r : Residency) : Option Nat :=
  r.lru.reverse.find? fun offset => ((find r offset).map evictable).getD false

/-! ## Persistence -/

structure Row where
  size : Nat
  state : State
  remoteId : Nat
  deriving DecidableEq, Repr

structure Table where
  clean : Bool
  cap : Nat
  residentBytes : Nat
  generation : Nat
  rows : DenseMap Nat Row

def emptyTable : Table := ⟨false, 0, 0, 1, DenseMap.empty⟩

def serialize (r : Residency) (clean : Bool) : Table :=
  ⟨clean, r.cap, r.residentBytes, r.generation, r.map.mapValues fun e => ⟨e.size, e.state, e.remoteId⟩⟩

def demoted : State → State
  | .localUploaded => .remoteUploaded
  | .localSpilled => .remoteSpilled
  | state => state

def restoredState (clean : Bool) (state : State) : State := if clean then state else demoted state

def demotedBytes (table : Table) : Nat :=
  table.rows.total fun row => if row.state.hasLocalBytes then row.size else 0

def deserialize (table : Table) : Residency where
  map := table.rows.mapValues fun row =>
    ⟨row.size, restoredState table.clean row.state, true, 0, 0, row.remoteId⟩
  lru := ((table.rows.entries.filter fun e =>
    restoredState table.clean e.2.state = .localUploaded).map Prod.fst).reverse
  residentBytes := if table.clean then table.residentBytes else table.residentBytes - demotedBytes table
  cap := table.cap
  generation := table.generation

/-! ## What each transition leaves -/

variable {layout : Layout Nat Entry}

theorem forgetFound {r after : Residency} {offset f} (gone : forget layout r offset = some (after, f)) :
    ∃ e, find r offset = some e ∧ after.map = r.map.erase layout offset ∧
      f.spilled = e.state.spilled ∧ f.remoteId = e.remoteId := by
  unfold forget at gone
  cases found : find r offset with
  | none => simp [found] at gone
  | some e =>
    simp only [found, Option.some.injEq, Prod.mk.injEq] at gone
    obtain ⟨rfl, rfl⟩ := gone
    refine ⟨e, rfl, ?_, rfl, rfl⟩
    split
    · rfl
    · rfl

theorem shippedUnspilled (state : State) : (shipped state).spilled = false := by
  cases state with
  | localUploaded => rfl
  | remoteUploaded => rfl
  | localSpilled => rfl
  | remoteSpilled => rfl

theorem restoredSpilled (clean : Bool) (state : State) :
    (restoredState clean state).spilled = state.spilled := by
  unfold restoredState
  split
  · rfl
  · cases state with
    | localUploaded => rfl
    | remoteUploaded => rfl
    | localSpilled => rfl
    | remoteSpilled => rfl

end Dewfall.BlobResidency
