import Dewfall.Core.ResidencyRuns
import Dewfall.General.Codec

/-! The residency table as bytes, and the table that is read back after a clean or an unclean
shutdown. Rows are written in the order of the map. Nothing is claimed of a table that refused its
bytes, nor of a file with keys that repeat. -/
namespace Dewfall.ResidencyBytes
open General General.LinkedList General.Codec
open BlobResidency (Entry Residency State Forgotten restoredState)
open ResidencySlab

def residencyMagic : Nat := 0x31534252

def stateByte : State → Nat
  | .localUploaded => 1
  | .remoteUploaded => 2
  | .localSpilled => 3
  | .remoteSpilled => 4

def stateOf : Nat → Option State
  | 1 => some .localUploaded
  | 2 => some .remoteUploaded
  | 3 => some .localSpilled
  | 4 => some .remoteSpilled
  | _ => none

def rowImage (s : Slot) : Bytes :=
  littleEndian 8 s.offset ++ littleEndian 8 s.entry.remoteId ++ littleEndian 4 s.entry.size ++
    littleEndian 1 (stateByte s.entry.state) ++ littleEndian 1 s.entry.durable.toNat

def rows (t : Table) : List Slot := t.map.entries.map fun e => slot t e.2

def headerImage (t : Table) (clean : Bool) : Bytes :=
  littleEndian 4 residencyMagic ++ littleEndian 1 clean.toNat ++ littleEndian 8 t.cap ++
    littleEndian 8 t.residentBytes ++ littleEndian 4 t.generation ++ littleEndian 4 (rows t).length

-- The size is a 32-bit number: with more rows a write fails, and there is no snapshot.
def serialize (t : Table) (clean : Bool) : Option Bytes :=
  let image := headerImage t clean ++ (rows t).flatMap rowImage
  if image.length < 2 ^ 32 then some image else none

/-! ## deserialize -/

def readMemory (width : Nat) (bytes : Bytes) : Option (Nat × Bytes) :=
  if bytes.length < width then none else some (ofLittleEndian (bytes.take width), bytes.drop width)

-- The durable byte is read and not used.
def readRow (bytes : Bytes) : Option (Slot × Bytes) := do
  let (offset, bytes) ← readMemory 8 bytes
  let (remoteId, bytes) ← readMemory 8 bytes
  let (size, bytes) ← readMemory 4 bytes
  let (state, bytes) ← readMemory 1 bytes
  let (_, bytes) ← readMemory 1 bytes
  let state ← stateOf state
  some (⟨offset, ⟨size, state, true, 0, 0, remoteId⟩⟩, bytes)

variable (layout : Layout Nat Nat)

def addRow (clean : Bool) (t : Table) (s : Slot) : Table :=
  let e := { s.entry with state := restoredState clean s.entry.state }
  let settled := if !clean && s.entry.state.hasLocalBytes then accountFreed t s.entry.size else t
  { settled with
    slab := settled.slab ++ [⟨s.offset, e⟩]
    map := settled.map.insert layout s.offset settled.slab.length
    links := if e.state = .localUploaded then pushFront settled.links settled.slab.length else settled.links }

def readRows (clean : Bool) : Nat → Bytes → Table → Table × Bool
  | 0, _, t => (t, true)
  | count + 1, bytes, t =>
    match readRow bytes with
    | none => (t, false)
    | some (s, bytes) => readRows clean count bytes (addRow layout clean t s)

-- What was read before a refusal stays in the table.
def deserialize (t : Table) (bytes : Bytes) : Table × Bool :=
  match readMemory 4 bytes with
  | none => (t, false)
  | some (magic, bytes) =>
    if magic ≠ residencyMagic then (t, false)
    else match readMemory 1 bytes with
    | none => (t, false)
    | some (clean, bytes) =>
      match readMemory 8 bytes with
      | none => (t, false)
      | some (cap, bytes) =>
        match readMemory 8 bytes with
        | none => ({ t with cap := cap }, false)
        | some (residentBytes, bytes) =>
          match readMemory 4 bytes with
          | none => ({ t with cap := cap, residentBytes := residentBytes }, false)
          | some (generation, bytes) =>
            match readMemory 4 bytes with
            | none => ({ t with cap := cap, residentBytes := residentBytes, generation := generation }, false)
            | some (count, bytes) =>
              readRows layout (clean ≠ 0) count bytes
                ⟨DenseMap.empty, [], [], LinkedList.empty, residentBytes, cap, generation⟩

/-! ## Which bytes are accepted -/

def field (bytes : Bytes) (start width : Nat) : Nat := ofLittleEndian ((bytes.drop start).take width)

def rowsFit (bytes : Bytes) (start count : Nat) : Prop :=
  start + 22 * count ≤ bytes.length ∧ ∀ i < count, (stateOf (field bytes (start + 22 * i + 20) 1)).isSome

def WellFormed (bytes : Bytes) : Prop :=
  29 ≤ bytes.length ∧ field bytes 0 4 = residencyMagic ∧ rowsFit bytes 29 (field bytes 25 4)

variable {layout}

theorem readAt {bytes : Bytes} {start width : Nat} (room : start + width ≤ bytes.length) :
    readMemory width (bytes.drop start) = some (field bytes start width, bytes.drop (start + width)) := by
  rw [readMemory, if_neg (by rw [List.length_drop]; omega), List.drop_drop]
  rfl

theorem readShort {bytes : Bytes} {start width : Nat} (short : bytes.length < start + width) (some_ : 0 < width) :
    readMemory width (bytes.drop start) = none := by
  rw [readMemory, if_pos (by rw [List.length_drop]; omega)]

theorem readRowAt {bytes : Bytes} {start : Nat} (room : start + 22 ≤ bytes.length) :
    readRow (bytes.drop start) = (stateOf (field bytes (start + 20) 1)).map fun state =>
      (⟨field bytes start 8, ⟨field bytes (start + 16) 4, state, true, 0, 0, field bytes (start + 8) 8⟩⟩,
        bytes.drop (start + 22)) := by
  unfold readRow
  rw [readAt (by omega)]
  dsimp only [Option.bind_eq_bind, Option.bind_some]
  rw [readAt (by omega)]
  dsimp only [Option.bind_some]
  rw [readAt (by omega)]
  dsimp only [Option.bind_some]
  rw [readAt (by omega)]
  dsimp only [Option.bind_some]
  rw [readAt (by omega)]
  dsimp only [Option.bind_some]
  cases stateOf (field bytes (start + 20) 1) with
  | none => rfl
  | some state => rfl

theorem readRowShort {bytes : Bytes} {start : Nat} (short : bytes.length < start + 22) :
    readRow (bytes.drop start) = none := by
  unfold readRow
  by_cases first : start + 8 ≤ bytes.length
  · rw [readAt first]
    dsimp only [Option.bind_eq_bind, Option.bind_some]
    by_cases second : start + 8 + 8 ≤ bytes.length
    · rw [readAt second]
      dsimp only [Option.bind_some]
      by_cases third : start + 8 + 8 + 4 ≤ bytes.length
      · rw [readAt third]
        dsimp only [Option.bind_some]
        by_cases fourth : start + 8 + 8 + 4 + 1 ≤ bytes.length
        · rw [readAt fourth]
          dsimp only [Option.bind_some]
          rw [readShort (by omega) (by decide)]
          rfl
        · rw [readShort (by omega) (by decide)]
          rfl
      · rw [readShort (by omega) (by decide)]
        rfl
    · rw [readShort (by omega) (by decide)]
      rfl
  · rw [readShort (by omega) (by decide)]
    rfl

theorem rowsAccepted (clean : Bool) (bytes : Bytes) (count start : Nat) (t : Table) (inside : start ≤ bytes.length) :
    (readRows layout clean count (bytes.drop start) t).2 = true ↔ rowsFit bytes start count := by
  induction count generalizing start t with
  | zero =>
    refine ⟨fun _ => ⟨by omega, fun i less => absurd less (Nat.not_lt_zero i)⟩, fun _ => rfl⟩
  | succ count ih =>
    unfold readRows
    by_cases room : start + 22 ≤ bytes.length
    · rw [readRowAt room]
      cases good : stateOf (field bytes (start + 20) 1) with
      | none =>
        refine ⟨fun done => absurd done (by simp), fun fit => ?_⟩
        have first := fit.2 0 (Nat.zero_lt_succ _)
        rw [Nat.mul_zero, Nat.add_zero, good] at first
        cases first
      | some state =>
        dsimp only [Option.map_some]
        rw [ih (start + 22) _ room]
        unfold rowsFit
        refine and_congr (by omega) ⟨fun all i less => ?_, fun all i less => ?_⟩
        · cases i with
          | zero => rw [Nat.mul_zero, Nat.add_zero, good]; rfl
          | succ i =>
            have here := all i (Nat.lt_of_succ_lt_succ less)
            rwa [show start + 22 + 22 * i + 20 = start + 22 * (i + 1) + 20 by omega] at here
        · have here := all (i + 1) (Nat.succ_lt_succ less)
          rwa [show start + 22 * (i + 1) + 20 = start + 22 + 22 * i + 20 by omega] at here
    · rw [readRowShort (by omega)]
      refine ⟨fun done => absurd done (by simp), fun fit => ?_⟩
      have whole := fit.1
      omega

theorem readFirst {bytes : Bytes} {width : Nat} (room : width ≤ bytes.length) :
    readMemory width bytes = some (field bytes 0 width, bytes.drop width) := by
  have here := @readAt bytes 0 width (by omega)
  rwa [List.drop_zero, Nat.zero_add] at here

theorem deserializeHeader (t : Table) {bytes : Bytes} (room : 29 ≤ bytes.length)
    (magic : field bytes 0 4 = residencyMagic) :
    deserialize layout t bytes = readRows layout (field bytes 4 1 ≠ 0) (field bytes 25 4) (bytes.drop 29)
      ⟨DenseMap.empty, [], [], LinkedList.empty, field bytes 13 8, field bytes 5 8, field bytes 21 4⟩ := by
  unfold deserialize
  rw [readFirst (by omega)]
  dsimp only
  rw [if_neg (by simpa using magic), readAt (by omega)]
  dsimp only
  rw [readAt (by omega)]
  dsimp only
  rw [readAt (by omega)]
  dsimp only
  rw [readAt (by omega)]
  dsimp only
  rw [readAt (by omega)]

theorem headerShort (t : Table) {bytes : Bytes} (short : bytes.length < 29) : (deserialize layout t bytes).2 = false := by
  unfold deserialize
  by_cases first : 4 ≤ bytes.length
  · rw [readFirst first]
    dsimp only
    split
    · rfl
    by_cases second : 4 + 1 ≤ bytes.length
    · rw [readAt second]
      dsimp only
      by_cases third : 4 + 1 + 8 ≤ bytes.length
      · rw [readAt third]
        dsimp only
        by_cases fourth : 4 + 1 + 8 + 8 ≤ bytes.length
        · rw [readAt fourth]
          dsimp only
          by_cases fifth : 4 + 1 + 8 + 8 + 4 ≤ bytes.length
          · rw [readAt fifth]
            dsimp only
            rw [readShort (by omega) (by decide)]
          · rw [readShort (by omega) (by decide)]
        · rw [readShort (by omega) (by decide)]
      · rw [readShort (by omega) (by decide)]
    · rw [readShort (by omega) (by decide)]
  · have none_ := @readShort bytes 0 4 (by omega) (by decide)
    rw [List.drop_zero] at none_
    rw [none_]

theorem accepted (t : Table) (bytes : Bytes) : (deserialize layout t bytes).2 = true ↔ WellFormed bytes := by
  by_cases room : 29 ≤ bytes.length
  · by_cases magic : field bytes 0 4 = residencyMagic
    · rw [deserializeHeader t room magic, rowsAccepted _ _ _ _ _ room, WellFormed]
      exact ⟨fun fit => ⟨room, magic, fit⟩, fun all => all.2.2⟩
    · refine ⟨fun done => ?_, fun all => absurd all.2.1 magic⟩
      unfold deserialize at done
      rw [readFirst (by omega)] at done
      dsimp only at done
      rw [if_pos (by simpa using magic)] at done
      cases done
  · refine ⟨fun done => ?_, fun all => absurd all.1 room⟩
    exact absurd ((headerShort t (by omega)).symm.trans done) (by decide)

/-! ## What a snapshot restores -/

def restoredEntry (clean : Bool) (e : Entry) : Entry := ⟨e.size, restoredState clean e.state, true, 0, 0, e.remoteId⟩

def localBytes (l : List Slot) : Nat := (l.map fun s => if s.entry.state.hasLocalBytes then s.entry.size else 0).sum

-- The table of offsets that a restored table stands for.
def settled (clean : Bool) (t : Table) : Residency where
  map := t.map.mapValues fun idx => restoredEntry clean (slot t idx).entry
  lru := (((rows t).filter fun s => restoredState clean s.entry.state = .localUploaded).map Slot.offset).reverse
  residentBytes := t.residentBytes - if clean then 0 else localBytes (rows t)
  cap := t.cap
  generation := t.generation

def RowFits (s : Slot) : Prop := s.offset < 2 ^ 64 ∧ s.entry.size < 2 ^ 32 ∧ s.entry.remoteId < 2 ^ 64

structure Fits (r : Residency) : Prop where
  entry : ∀ offset e, BlobResidency.find r offset = some e → RowFits ⟨offset, e⟩
  cap : r.cap < 2 ^ 64
  bytes : r.residentBytes < 2 ^ 64
  generation : r.generation < 2 ^ 32

theorem readImage (width n : Nat) (rest : Bytes) :
    readMemory width (littleEndian width n ++ rest) = some (n % 256 ^ width, rest) := by
  have length := littleEndianLength width n
  rw [readMemory, if_neg (by rw [List.length_append, length]; omega), List.take_left' length, List.drop_left' length,
    ofLittleEndianBack]

theorem stateBack (state : State) : stateOf (stateByte state) = some state := by
  cases state with
  | localUploaded => rfl
  | remoteUploaded => rfl
  | localSpilled => rfl
  | remoteSpilled => rfl

def written (s : Slot) : Slot := ⟨s.offset, ⟨s.entry.size, s.entry.state, true, 0, 0, s.entry.remoteId⟩⟩

theorem readRowBack {s : Slot} (fits : RowFits s) (rest : Bytes) : readRow (rowImage s ++ rest) = some (written s, rest) := by
  obtain ⟨offset, size, remoteId⟩ := fits
  have state : stateByte s.entry.state % 256 ^ 1 = stateByte s.entry.state := by
    cases s.entry.state with
    | localUploaded => rfl
    | remoteUploaded => rfl
    | localSpilled => rfl
    | remoteSpilled => rfl
  unfold readRow rowImage
  simp only [List.append_assoc]
  rw [readImage]
  dsimp only [Option.bind_eq_bind, Option.bind_some]
  rw [readImage]
  dsimp only [Option.bind_some]
  rw [readImage]
  dsimp only [Option.bind_some]
  rw [readImage]
  dsimp only [Option.bind_some]
  rw [readImage]
  dsimp only [Option.bind_some]
  rw [state, stateBack, Nat.mod_eq_of_lt (show s.offset < 256 ^ 8 from offset),
    Nat.mod_eq_of_lt (show s.entry.size < 256 ^ 4 from size),
    Nat.mod_eq_of_lt (show s.entry.remoteId < 256 ^ 8 from remoteId)]
  rfl

theorem readRowsBack {l : List Slot} (fits : ∀ s ∈ l, RowFits s) (clean : Bool) (rest : Bytes) (t : Table) :
    readRows layout clean l.length (l.flatMap rowImage ++ rest) t =
      (l.foldl (fun t s => addRow layout clean t (written s)) t, true) := by
  induction l generalizing t with
  | nil => rfl
  | cons s l ih =>
    rw [List.length_cons, List.flatMap_cons, List.append_assoc, readRows, readRowBack (fits s List.mem_cons_self)]
    exact ih (fun other mem => fits other (List.mem_cons_of_mem _ mem)) _

theorem rowMapped {t r xs s} (rep : Represents t r xs) (mem : s ∈ rows t) : entryAt t s.offset = some s.entry := by
  obtain ⟨⟨offset, idx⟩, there, rfl⟩ := List.mem_map.mp mem
  have found := DenseMap.findMem.mpr there
  rw [(rep.slots.mapped offset idx found).2, entryAt, found]
  rfl

theorem deserializeImage {t r xs} (rep : Represents t r xs) (fits : Fits r) (few : (rows t).length < 2 ^ 32)
    (before : Table) (clean : Bool) :
    deserialize layout before (headerImage t clean ++ (rows t).flatMap rowImage) =
      ((rows t).foldl (fun t s => addRow layout clean t (written s))
        ⟨DenseMap.empty, [], [], LinkedList.empty, t.residentBytes, t.cap, t.generation⟩, true) := by
  have each : ∀ s ∈ rows t, RowFits s := fun s mem => fits.entry s.offset s.entry (by rw [rep.found, rowMapped rep mem])
  have flag : (decide (clean.toNat % 256 ^ 1 ≠ 0)) = clean := by
    cases clean with
    | true => rfl
    | false => rfl
  have back := @readRowsBack layout (rows t) each clean []
    ⟨DenseMap.empty, [], [], LinkedList.empty, t.residentBytes, t.cap, t.generation⟩
  rw [List.append_nil] at back
  unfold deserialize headerImage
  simp only [List.append_assoc]
  rw [readImage]
  dsimp only
  rw [if_neg (by decide), readImage]
  dsimp only
  rw [readImage]
  dsimp only
  rw [readImage]
  dsimp only
  rw [readImage]
  dsimp only
  rw [readImage]
  dsimp only
  rw [flag, Nat.mod_eq_of_lt (show t.cap < 256 ^ 8 from rep.cap ▸ fits.cap),
    Nat.mod_eq_of_lt (show t.residentBytes < 256 ^ 8 from rep.bytes ▸ fits.bytes),
    Nat.mod_eq_of_lt (show t.generation < 256 ^ 4 from rep.generation ▸ fits.generation),
    Nat.mod_eq_of_lt (show (rows t).length < 256 ^ 4 from few)]
  exact back

/-! ## The rows that were read, as a table of offsets -/

theorem addRowFields (clean : Bool) (t : Table) (s : Slot) :
    addRow layout clean t (written s) = { t with
      slab := t.slab ++ [⟨s.offset, restoredEntry clean s.entry⟩]
      map := t.map.insert layout s.offset t.slab.length
      links := if restoredState clean s.entry.state = .localUploaded then pushFront t.links t.slab.length else t.links
      residentBytes := t.residentBytes - if clean then 0 else localBytes [s] } := by
  have local_ : (written s).entry.state = s.entry.state := rfl
  unfold addRow localBytes
  dsimp only
  rw [List.map_singleton, List.sum_singleton, local_]
  cases clean with
  | true => rfl
  | false =>
    cases s.entry.state.hasLocalBytes with
    | true => rfl
    | false => rfl

theorem addRowRepresents {t r r' xs clean s} (rep : Represents t r xs) (free : t.freeSlots = [])
    (none_ : t.map.find s.offset = none)
    (found : ∀ k, BlobResidency.find r' k =
      if k = s.offset then some (restoredEntry clean s.entry) else BlobResidency.find r k)
    (lru : r'.lru = if restoredState clean s.entry.state = .localUploaded then s.offset :: r.lru else r.lru)
    (bytes : r'.residentBytes = r.residentBytes - if clean then 0 else localBytes [s])
    (counters : r'.cap = r.cap ∧ r'.generation = r.generation) :
    ∃ xs', Represents (addRow layout clean t (written s)) r' xs' := by
  have made := @getOrCreateDone layout t rep.slots s.offset s.entry.size
  have absent : entryAt t s.offset = none := by rw [entryAt, none_]; rfl
  rw [getOrCreate, none_, free, absent] at made
  dsimp only at made
  have away : t.slab.length ∉ xs := by
    intro mem
    exact absurd (rep.slots.mapped _ _ ((rep.listed _).mp mem).1).1 (Nat.lt_irrefl _)
  have slab : ∀ old new : Slot, t.slab ++ [new] = (t.slab ++ [old]).set t.slab.length new := by
    intro old new
    simp
  have kept : ∀ k ∈ xs, (if k = t.slab.length then s.offset else (slot t k).offset) = (slot t k).offset := by
    intro k mem
    rw [if_neg]
    rintro rfl
    exact away mem
  have settledCounters : r'.residentBytes = t.residentBytes - (if clean then 0 else localBytes [s]) ∧
      r'.cap = t.cap ∧ r'.generation = t.generation :=
    ⟨by rw [bytes, rep.bytes], counters.1.trans rep.cap, counters.2.trans rep.generation⟩
  rw [addRowFields]
  by_cases local_ : restoredState clean s.entry.state = .localUploaded
  · rw [if_pos local_] at lru
    rw [if_pos local_]
    refine ⟨t.slab.length :: xs, writtenRepresents rep made rfl ?_ free
      (holdsPush rep.links away) (fun k => ?_) found ?_ settledCounters⟩
    · rw [setEntry, made.here]
      exact slab _ _
    · rw [List.mem_cons]
      split
      · rename_i same
        exact ⟨fun _ => local_, fun _ => Or.inl same⟩
      · rename_i other
        exact or_iff_right other
    · rw [lru, List.map_cons, if_pos rfl, rep.lru, List.map_congr_left kept]
  · rw [if_neg local_] at lru
    rw [if_neg local_]
    refine ⟨xs, writtenRepresents rep made rfl ?_ free rep.links (fun k => ?_)
      found ?_ settledCounters⟩
    · rw [setEntry, made.here]
      exact slab _ _
    · split
      · rename_i same
        exact ⟨fun mem => absurd (same ▸ mem) away, fun here => absurd here local_⟩
      · rfl
    · rw [lru, rep.lru, List.map_congr_left kept]

-- The table of offsets that rows of distinct keys stand for.
def loaded (t : Table) (clean : Bool) (l : List Slot) (distinct : (l.map Slot.offset).Nodup) : Residency where
  map := ⟨l.map fun s => (s.offset, restoredEntry clean s.entry), by rwa [List.map_map]⟩
  lru := ((l.filter fun s => restoredState clean s.entry.state = .localUploaded).map Slot.offset).reverse
  residentBytes := t.residentBytes - if clean then 0 else localBytes l
  cap := t.cap
  generation := t.generation

theorem loadedMem {t clean l distinct k e} : BlobResidency.find (loaded t clean l distinct) k = some e ↔
    ∃ s ∈ l, s.offset = k ∧ restoredEntry clean s.entry = e := by
  rw [BlobResidency.find, DenseMap.findMem]
  show (k, e) ∈ l.map _ ↔ _
  rw [List.mem_map]
  constructor
  · rintro ⟨s, mem, same⟩
    exact ⟨s, mem, congrArg Prod.fst same, congrArg Prod.snd same⟩
  · rintro ⟨s, mem, rfl, rfl⟩
    exact ⟨s, mem, rfl⟩

theorem loadedSnoc {t clean l s} (distinct : (l.map Slot.offset).Nodup)
    (all : ((l ++ [s]).map Slot.offset).Nodup) (k : Nat) :
    BlobResidency.find (loaded t clean (l ++ [s]) all) k =
      if k = s.offset then some (restoredEntry clean s.entry) else BlobResidency.find (loaded t clean l distinct) k := by
  split
  · rename_i same
    exact loadedMem.mpr ⟨s, by simp, same.symm, rfl⟩
  · rename_i other
    refine Option.ext fun e => ?_
    rw [loadedMem, loadedMem]
    constructor
    · rintro ⟨row, mem, here, entry⟩
      rcases List.mem_append.mp mem with early | last
      · exact ⟨row, early, here, entry⟩
      · rw [List.mem_singleton.mp last] at here
        exact absurd here.symm other
    · rintro ⟨row, mem, both⟩
      exact ⟨row, List.mem_append_left _ mem, both⟩

theorem localBytesSnoc (l : List Slot) (s : Slot) : localBytes (l ++ [s]) = localBytes l + localBytes [s] := by
  rw [localBytes, List.map_append, List.sum_append]
  rfl

theorem rowsRepresent (t : Table) (clean : Bool) (l : List Slot) (distinct : (l.map Slot.offset).Nodup) :
    let after := l.foldl (fun t s => addRow layout clean t (written s))
      ⟨DenseMap.empty, [], [], LinkedList.empty, t.residentBytes, t.cap, t.generation⟩
    (∃ xs, Represents after (loaded t clean l distinct) xs) ∧ after.freeSlots = [] := by
  induction l using List.reverseRecOn with
  | nil =>
    have none_ := emptyRepresents
    refine ⟨⟨[], ⟨none_.slots.mapped, none_.slots.free, none_.slots.vacant, none_.slots.cover⟩, none_.links,
      none_.listed, none_.found, rfl, ?_, rfl, rfl⟩, rfl⟩
    cases clean with
    | true => rfl
    | false => rfl
  | append_singleton l s ih =>
    have apart := List.nodup_append.mp (List.map_append ▸ distinct)
    have fresh : s.offset ∉ l.map Slot.offset := fun mem => apart.2.2 _ mem s.offset (by simp) rfl
    obtain ⟨⟨xs, rep⟩, free⟩ := ih apart.1
    dsimp only at *
    rw [List.foldl_append, List.foldl_cons, List.foldl_nil]
    generalize l.foldl _ _ = before at *
    have none_ : before.map.find s.offset = none := by
      cases found : before.map.find s.offset with
      | none => rfl
      | some idx =>
        obtain ⟨row, mem, same, _⟩ := loadedMem.mp (foundEntry rep found)
        exact absurd (same ▸ List.mem_map_of_mem mem) fresh
    refine ⟨addRowRepresents rep free none_ (loadedSnoc apart.1 distinct) ?_ ?_ ⟨rfl, rfl⟩, ?_⟩
    · unfold loaded
      dsimp only
      rw [List.filter_append, List.map_append, List.reverse_append]
      split
      · rename_i local_
        rw [List.filter_cons_of_pos (by simpa using local_)]
        rfl
      · rename_i remote
        rw [List.filter_cons_of_neg (by simpa using remote)]
        rfl
    · unfold loaded
      dsimp only
      rw [localBytesSnoc]
      cases clean with
      | true => rfl
      | false => exact Nat.sub_add_eq _ _ _
    · rw [addRowFields]
      exact free

theorem rowsDistinct {t r xs} (rep : Represents t r xs) : ((rows t).map Slot.offset).Nodup := by
  have same : (rows t).map Slot.offset = t.map.entries.map Prod.fst := by
    rw [rows, List.map_map]
    refine List.map_congr_left fun e mem => ?_
    exact (rep.slots.mapped e.1 e.2 (DenseMap.findMem.mpr mem)).2
  rw [same]
  exact t.map.distinct

theorem settledFind (clean : Bool) (t : Table) (k : Nat) :
    BlobResidency.find (settled clean t) k = (entryAt t k).map (restoredEntry clean) := by
  rw [entryAt, Option.map_map]
  exact DenseMap.findMapValues _ _ _

theorem settledRepresents {t r xs} (rep : Represents t r xs) (fits : Fits r) (few : (rows t).length < 2 ^ 32)
    (before : Table) (clean : Bool) :
    ∃ after, deserialize layout before (headerImage t clean ++ (rows t).flatMap rowImage) = (after, true) ∧
      (∃ ys, Represents after (settled clean t) ys) ∧ after.freeSlots = [] := by
  obtain ⟨⟨ys, there⟩, free⟩ := @rowsRepresent layout t clean (rows t) (rowsDistinct rep)
  refine ⟨_, deserializeImage rep fits few before clean, ⟨ys, there.slots, there.links, there.listed, fun k => ?_,
    there.lru, there.bytes, there.cap, there.generation⟩, free⟩
  rw [← there.found, settledFind]
  refine Option.ext fun e => ?_
  rw [Option.map_eq_some_iff, loadedMem]
  constructor
  · rintro ⟨old, found, rfl⟩
    obtain ⟨idx, at_, rfl⟩ := Option.map_eq_some_iff.mp found
    refine ⟨slot t idx, List.mem_map_of_mem (DenseMap.findMem.mp at_), (rep.slots.mapped k idx at_).2, rfl⟩
  · rintro ⟨s, mem, rfl, rfl⟩
    exact ⟨s.entry, rowMapped rep mem, rfl⟩

/-! ## What a client asks of a table -/

inductive Operation where
  | setCap (bytes : Nat)
  | accountAlloc (bytes : Nat)
  | accountFreed (bytes : Nat)
  | overSoft
  | overHard (incoming : Nat)
  | markUploaded (offset size remoteId : Nat)
  | markSpilled (offset size remoteId : Nat)
  | markSpilledRemote (offset size remoteId : Nat)
  | serializeGeneration
  | commitDurable (generation : Nat)
  | evict (offset : Nat)
  | dropSpilledLocal (offset : Nat)
  | forget (offset : Nat)
  | find (offset : Nat)
  | touch (offset : Nat)
  | beginLocalRead (offset : Nat)
  | endLocalRead (offset : Nat)
  | pickEvictVictim
  deriving DecidableEq, Repr

inductive Answer where
  | done
  | flag (good : Bool)
  | number (n : Nat)
  | entry (e : Option Entry)
  | forgotten (f : Option Forgotten)
  | victim (offset : Option Nat)
  deriving DecidableEq, Repr

def overSoft (t : Table) : Bool := t.cap ≠ 0 && t.cap - t.cap / 8 < t.residentBytes

def overHard (t : Table) (incoming : Nat) : Bool := t.cap ≠ 0 && t.cap < u64 (t.residentBytes + incoming)

def attempted {α : Type} (before : α) (after : Option α) : α × Answer := (after.getD before, .flag after.isSome)

variable (layout) in
def act (t : Table) : Operation → Table × Answer
  | .setCap bytes => ({ t with cap := bytes }, .done)
  | .accountAlloc bytes => (accountAlloc t bytes, .done)
  | .accountFreed bytes => (accountFreed t bytes, .done)
  | .overSoft => (t, .flag (overSoft t))
  | .overHard incoming => (t, .flag (overHard t incoming))
  | .markUploaded offset size remoteId =>
    let (t, reference) := markUploaded layout t offset size remoteId
    (t, .number reference)
  | .markSpilled offset size remoteId => (markSpilled layout t offset size remoteId, .done)
  | .markSpilledRemote offset size remoteId => (markSpilledRemote layout t offset size remoteId, .done)
  | .serializeGeneration =>
    let (t, generation) := serializeGeneration t
    (t, .number generation)
  | .commitDurable generation => (commitDurable t generation, .done)
  | .evict offset => attempted t (evict t offset)
  | .dropSpilledLocal offset => attempted t (dropSpilledLocal t offset)
  | .forget offset =>
    let gone := forget layout t offset
    ((gone.map Prod.fst).getD t, .forgotten (gone.map Prod.snd))
  | .find offset => (t, .entry (entryAt t offset))
  | .touch offset => (touch t offset, .done)
  | .beginLocalRead offset => (beginLocalRead t offset, .done)
  | .endLocalRead offset => (endLocalRead t offset, .done)
  | .pickEvictVictim => (t, .victim (pickEvictVictim t))

variable (entries : Layout Nat Entry) in
def actOn (r : Residency) : Operation → Residency × Answer
  | .setCap bytes => ({ r with cap := bytes }, .done)
  | .accountAlloc bytes => (BlobResidency.accountAlloc r bytes, .done)
  | .accountFreed bytes => (BlobResidency.accountFreed r bytes, .done)
  | .overSoft => (r, .flag (BlobResidency.overSoft r))
  | .overHard incoming => (r, .flag (BlobResidency.overHard r incoming))
  | .markUploaded offset size remoteId =>
    let (r, reference) := BlobResidency.markUploaded entries r offset size remoteId
    (r, .number reference)
  | .markSpilled offset size remoteId => (BlobResidency.markSpilled entries r offset size remoteId, .done)
  | .markSpilledRemote offset size remoteId => (BlobResidency.markSpilledRemote entries r offset size remoteId, .done)
  | .serializeGeneration =>
    let (r, generation) := BlobResidency.serializeGeneration r
    (r, .number generation)
  | .commitDurable generation => (BlobResidency.commitDurable r generation, .done)
  | .evict offset => attempted r (BlobResidency.evict r offset)
  | .dropSpilledLocal offset => attempted r (BlobResidency.dropSpilledLocal r offset)
  | .forget offset =>
    let gone := BlobResidency.forget entries r offset
    ((gone.map Prod.fst).getD r, .forgotten (gone.map Prod.snd))
  | .find offset => (r, .entry (BlobResidency.find r offset))
  | .touch offset => (BlobResidency.touch r offset, .done)
  | .beginLocalRead offset => (BlobResidency.beginLocalRead r offset, .done)
  | .endLocalRead offset => (BlobResidency.endLocalRead r offset, .done)
  | .pickEvictVictim => (r, .victim (BlobResidency.pickEvictVictim r))

def answers {σ : Type} (step : σ → Operation → σ × Answer) : σ → List Operation → List Answer
  | _, [] => []
  | s, op :: rest => (step s op).2 :: answers step (step s op).1 rest

variable {entries : Layout Nat Entry}

theorem attemptedRepresents {t r xs a b} (rep : Represents t r xs) (agree : Agrees a b) :
    (∃ xs', Represents (attempted t a).1 (attempted r b).1 xs') ∧ (attempted t a).2 = (attempted r b).2 := by
  rcases agree with ⟨rfl, rfl⟩ | ⟨t', r', xs', rfl, rfl, after⟩
  · exact ⟨⟨xs, rep⟩, rfl⟩
  · exact ⟨⟨xs', after⟩, rfl⟩

theorem actRepresents {t r xs} (rep : Represents t r xs) (op : Operation) :
    (∃ xs', Represents (act layout t op).1 (actOn entries r op).1 xs') ∧ (act layout t op).2 = (actOn entries r op).2 := by
  cases op with
  | setCap bytes =>
    exact ⟨⟨xs, ⟨rep.slots.mapped, rep.slots.free, rep.slots.vacant, rep.slots.cover⟩, rep.links, rep.listed, rep.found,
      rep.lru, rep.bytes, rfl, rep.generation⟩, rfl⟩
  | accountAlloc bytes =>
    have same : (actOn entries r (.accountAlloc bytes)).1 =
        { r with residentBytes := u64 (t.residentBytes + bytes), generation := t.generation } := by
      rw [← rep.bytes, ← rep.generation]
      rfl
    rw [same]
    exact ⟨⟨xs, countersRepresents rep _ _⟩, rfl⟩
  | accountFreed bytes =>
    have same : (actOn entries r (.accountFreed bytes)).1 =
        { r with residentBytes := t.residentBytes - bytes, generation := t.generation } := by
      rw [← rep.bytes, ← rep.generation]
      rfl
    rw [same]
    exact ⟨⟨xs, countersRepresents rep _ _⟩, rfl⟩
  | overSoft =>
    refine ⟨⟨xs, rep⟩, congrArg Answer.flag ?_⟩
    rw [overSoft, BlobResidency.overSoft, rep.cap, rep.bytes]
  | overHard incoming =>
    refine ⟨⟨xs, rep⟩, congrArg Answer.flag ?_⟩
    rw [overHard, BlobResidency.overHard, rep.cap, rep.bytes]
  | markUploaded offset size remoteId =>
    obtain ⟨after, same⟩ := @uploadedRepresents layout entries t r xs rep offset size remoteId
    exact ⟨after, congrArg Answer.number same⟩
  | markSpilled offset size remoteId =>
    exact ⟨spilledRepresents rep .localSpilled (by decide) offset size remoteId, rfl⟩
  | markSpilledRemote offset size remoteId =>
    exact ⟨spilledRepresents rep .remoteSpilled (by decide) offset size remoteId, rfl⟩
  | serializeGeneration =>
    have same : (actOn entries r .serializeGeneration).1 =
        { r with residentBytes := t.residentBytes, generation := u32 (t.generation + 1) } := by
      rw [← rep.bytes, ← rep.generation]
      rfl
    rw [same]
    exact ⟨⟨xs, countersRepresents rep _ _⟩, congrArg Answer.number rep.generation.symm⟩
  | commitDurable generation => exact ⟨⟨xs, committedRepresents rep generation⟩, rfl⟩
  | evict offset => exact attemptedRepresents rep (evictedRepresents rep offset)
  | dropSpilledLocal offset => exact attemptedRepresents rep (droppedRepresents rep offset)
  | forget offset =>
    rcases @forgottenRepresents layout entries t r xs rep offset with ⟨none_, absent⟩ | ⟨t', r', xs', f, one, two, after⟩
    · dsimp only [act, actOn]
      rw [none_, absent]
      exact ⟨⟨xs, rep⟩, rfl⟩
    · dsimp only [act, actOn]
      rw [one, two]
      exact ⟨⟨xs', after⟩, rfl⟩
  | find offset => exact ⟨⟨xs, rep⟩, congrArg Answer.entry (rep.found offset).symm⟩
  | touch offset => exact ⟨touchedRepresents rep offset, rfl⟩
  | beginLocalRead offset => exact ⟨⟨xs, beginRepresents rep offset⟩, rfl⟩
  | endLocalRead offset => exact ⟨⟨xs, endRepresents rep offset⟩, rfl⟩
  | pickEvictVictim => exact ⟨⟨xs, rep⟩, congrArg Answer.victim (pickAgrees rep)⟩

theorem answersAgree {t r xs} (rep : Represents t r xs) (ops : List Operation) :
    answers (act layout) t ops = answers (actOn entries) r ops := by
  induction ops generalizing t r xs with
  | nil => rfl
  | cons op rest ih =>
    obtain ⟨⟨xs', after⟩, same⟩ := @actRepresents layout entries t r xs rep op
    rw [answers, answers, same, ih after]

/-! ## The fields keep their widths -/

-- The arguments have the types of the parameters.
def InRange : Operation → Prop
  | .setCap bytes => bytes < 2 ^ 64
  | .markUploaded offset size remoteId | .markSpilled offset size remoteId | .markSpilledRemote offset size remoteId =>
    offset < 2 ^ 64 ∧ size < 2 ^ 32 ∧ remoteId < 2 ^ 64
  | _ => True

theorem fitsInserted {r after : Residency} {offset e} (fits : Fits r) (row : RowFits ⟨offset, e⟩)
    (found : ∀ k, BlobResidency.find after k = if k = offset then some e else BlobResidency.find r k)
    (cap : after.cap = r.cap) (bytes : after.residentBytes ≤ r.residentBytes)
    (generation : after.generation = r.generation) : Fits after := by
  refine ⟨fun k e' there => ?_, cap ▸ fits.cap, Nat.lt_of_le_of_lt bytes fits.bytes, generation ▸ fits.generation⟩
  rw [found] at there
  split at there
  · rename_i same
    cases there
    exact same ▸ row
  · exact fits.entry k e' there

theorem fitsMarked {r : Residency} {offset size remoteId} {e : Entry} (fits : Fits r)
    (range : offset < 2 ^ 64 ∧ size < 2 ^ 32 ∧ remoteId < 2 ^ 64)
    (same : e.size = (BlobResidency.getOrCreate r offset size).size) (id_ : e.remoteId = remoteId) :
    RowFits ⟨offset, e⟩ := by
  obtain ⟨one, two, three⟩ := range
  refine ⟨one, ?_, by rw [id_]; exact three⟩
  show e.size < 2 ^ 32
  rw [same, BlobResidency.getOrCreate]
  cases found : BlobResidency.find r offset with
  | none => exact two
  | some old => exact (fits.entry offset old found).2.1

theorem fitsAssigned {r : Residency} {offset e} (fits : Fits r) (found : BlobResidency.find r offset = some e)
    (f : Entry → Entry) (size : (f e).size = e.size) (id_ : (f e).remoteId = e.remoteId) :
    RowFits ⟨offset, f e⟩ := by
  obtain ⟨one, two, three⟩ := fits.entry offset e found
  exact ⟨one, size ▸ two, id_ ▸ three⟩

theorem fitsAct {r} (fits : Fits r) (op : Operation) (range : InRange op) : Fits (actOn entries r op).1 := by
  cases op with
  | setCap bytes => exact ⟨fits.entry, range, fits.bytes, fits.generation⟩
  | accountAlloc bytes => exact ⟨fits.entry, fits.cap, Nat.mod_lt _ (by decide), fits.generation⟩
  | accountFreed bytes =>
    exact ⟨fits.entry, fits.cap, Nat.lt_of_le_of_lt (Nat.sub_le _ _) fits.bytes, fits.generation⟩
  | overSoft => exact fits
  | overHard incoming => exact fits
  | markUploaded offset size remoteId =>
    refine fitsInserted fits ?_ (DenseMap.findInsert entries r.map offset _) rfl (Nat.le_refl _) rfl
    exact fitsMarked fits range rfl rfl
  | markSpilled offset size remoteId =>
    refine fitsInserted fits ?_ (DenseMap.findInsert entries r.map offset _) rfl (Nat.le_refl _) rfl
    exact fitsMarked fits range rfl rfl
  | markSpilledRemote offset size remoteId =>
    refine fitsInserted fits ?_ (DenseMap.findInsert entries r.map offset _) rfl (Nat.le_refl _) rfl
    exact fitsMarked fits range rfl rfl
  | serializeGeneration => exact ⟨fits.entry, fits.cap, fits.bytes, Nat.mod_lt _ (by decide)⟩
  | commitDurable generation =>
    refine ⟨fun k e there => ?_, fits.cap, fits.bytes, fits.generation⟩
    have found : BlobResidency.find (BlobResidency.commitDurable r generation) k =
        (BlobResidency.find r k).map (BlobResidency.settleDurable generation) := DenseMap.findMapValues _ _ _
    obtain ⟨old, at_, rfl⟩ := Option.map_eq_some_iff.mp (found.symm.trans there)
    refine fitsAssigned fits at_ _ ?_ ?_
    · unfold BlobResidency.settleDurable
      split
      · rfl
      · rfl
    · unfold BlobResidency.settleDurable
      split
      · rfl
      · rfl
  | evict offset =>
    dsimp only [actOn]
    unfold BlobResidency.evict
    cases found : BlobResidency.find r offset with
    | none => exact fits
    | some e =>
      dsimp only
      split
      · exact fitsInserted fits (fitsAssigned fits found (fun e => { e with state := .remoteUploaded }) rfl rfl)
          (DenseMap.findAssign found _) rfl (Nat.sub_le _ _) rfl
      · exact fits
  | dropSpilledLocal offset =>
    dsimp only [actOn]
    unfold BlobResidency.dropSpilledLocal
    cases found : BlobResidency.find r offset with
    | none => exact fits
    | some e =>
      dsimp only
      split
      · exact fitsInserted fits (fitsAssigned fits found (fun e => { e with state := .remoteSpilled }) rfl rfl)
          (DenseMap.findAssign found _) rfl (Nat.sub_le _ _) rfl
      · exact fits
  | forget offset =>
    have left : ∀ k e, (r.map.erase entries offset).find k = some e → RowFits ⟨k, e⟩ := by
      intro k e there
      rw [DenseMap.findErase] at there
      split at there
      · cases there
      · exact fits.entry k e there
    dsimp only [actOn]
    unfold BlobResidency.forget
    cases found : BlobResidency.find r offset with
    | none => exact fits
    | some e =>
      dsimp only [Option.map_some, Option.getD_some]
      split
      · exact ⟨left, fits.cap, Nat.lt_of_le_of_lt (Nat.sub_le _ _) fits.bytes, fits.generation⟩
      · exact ⟨left, fits.cap, fits.bytes, fits.generation⟩
  | find offset => exact fits
  | touch offset =>
    dsimp only [actOn]
    unfold BlobResidency.touch
    split
    · split
      · exact ⟨fits.entry, fits.cap, fits.bytes, fits.generation⟩
      · exact fits
    · exact fits
  | beginLocalRead offset =>
    dsimp only [actOn]
    unfold BlobResidency.beginLocalRead
    cases found : BlobResidency.find r offset with
    | none => exact fits
    | some e =>
      exact fitsInserted fits (fitsAssigned fits found
        (fun e => { e with inflightLocalReads := (e.inflightLocalReads + 1) % 2 ^ 16 }) rfl rfl)
        (DenseMap.findAssign found _) rfl (Nat.le_refl _) rfl
  | endLocalRead offset =>
    dsimp only [actOn]
    unfold BlobResidency.endLocalRead
    cases found : BlobResidency.find r offset with
    | none => exact fits
    | some e =>
      exact fitsInserted fits (fitsAssigned fits found
        (fun e => { e with inflightLocalReads := e.inflightLocalReads - 1 }) rfl rfl)
        (DenseMap.findAssign found _) rfl (Nat.le_refl _) rfl
  | pickEvictVictim => exact fits

theorem settledFits {t r xs clean} (rep : Represents t r xs) (fits : Fits r) : Fits (settled clean t) := by
  refine ⟨fun k e there => ?_, Eq.trans_lt rep.cap.symm fits.cap, ?_, Eq.trans_lt rep.generation.symm fits.generation⟩
  · rw [settledFind, ← rep.found] at there
    obtain ⟨old, found, rfl⟩ := Option.map_eq_some_iff.mp there
    exact fitsAssigned fits found (restoredEntry clean) rfl rfl
  · have bytes := fits.bytes
    rw [rep.bytes] at bytes
    exact Nat.lt_of_le_of_lt (Nat.sub_le _ _) bytes

/-! ## Every table a client can reach -/

variable (layout) in
inductive Reached : Table → Prop where
  | empty : Reached ResidencySlab.empty
  | act {t} (op : Operation) (before : Reached t) (range : InRange op) : Reached (act layout t op).1
  | restored {t image} (clean : Bool) (table : Table) (before : Reached t) (image_ : serialize t clean = some image) :
    Reached (deserialize layout table image).1

theorem imageLength (t : Table) (clean : Bool) :
    (headerImage t clean ++ (rows t).flatMap rowImage).length = 29 + 22 * (rows t).length := by
  have each : ∀ l : List Slot, (l.flatMap rowImage).length = 22 * l.length := by
    intro l
    induction l with
    | nil => rfl
    | cons s rest ih =>
      rw [List.flatMap_cons, List.length_append, ih, rowImage]
      simp only [List.length_append, littleEndianLength, List.length_cons]
      omega
  rw [List.length_append, each, headerImage]
  simp only [List.length_append, littleEndianLength]

theorem serializeImage {t clean image} (image_ : serialize t clean = some image) :
    image = headerImage t clean ++ (rows t).flatMap rowImage ∧ image.length = 29 + 22 * (rows t).length ∧
      (rows t).length < 2 ^ 32 := by
  unfold serialize at image_
  dsimp only at image_
  split at image_
  · rename_i short
    cases image_
    rw [imageLength] at short
    exact ⟨rfl, imageLength t clean, by omega⟩
  · cases image_

theorem reachedRepresents {t} (reach : Reached layout t) : ∃ r xs, Represents t r xs ∧ Fits r := by
  induction reach with
  | empty =>
    refine ⟨_, _, emptyRepresents, (fun offset e there => ?_), by decide, by decide, by decide⟩
    have none_ : BlobResidency.find BlobResidency.empty offset = none := rfl
    rw [none_] at there
    cases there
  | act op before range ih =>
    obtain ⟨r, xs, rep, fits⟩ := ih
    obtain ⟨⟨xs', after⟩, _⟩ := @actRepresents layout (appendLayout Nat Entry) _ r xs rep op
    exact ⟨_, xs', after, fitsAct fits op range⟩
  | @restored t image clean table before image_ ih =>
    obtain ⟨r, xs, rep, fits⟩ := ih
    obtain ⟨rfl, _, few⟩ := serializeImage image_
    obtain ⟨after, done, ⟨ys, there⟩, _⟩ := @settledRepresents layout t r xs rep fits few table clean
    rw [done]
    exact ⟨_, ys, there, settledFits rep fits⟩

/-! ## What comes back -/

variable (layout) in
structure Restored (t : Table) (clean : Bool) (after : Table) : Prop where
  tracked : ∀ offset, entryAt after offset = (entryAt t offset).map (restoredEntry clean)
  demoted : clean = false → ∀ offset e, entryAt after offset = some e → e.state.hasLocalBytes = false
  bytes : after.residentBytes = t.residentBytes - if clean then 0 else localBytes (rows t)
  counters : after.cap = t.cap ∧ after.generation = t.generation
  free : after.freeSlots = []
  slots : ∀ idx < after.slab.length, ∃! offset, after.map.find offset = some idx
  lru : ∃ xs, Holds after.links xs ∧ ∀ idx, idx ∈ xs ↔ Mapped after idx ∧ (slot after idx).entry.state = .localUploaded
  later : ∀ (entries : Layout Nat Entry) (ops : List Operation),
    answers (act layout) after ops = answers (actOn entries) (settled clean t) ops

theorem restoredRemote (e : Entry) : (restoredEntry false e).state.hasLocalBytes = false := by
  unfold restoredEntry restoredState
  cases e.state with
  | localUploaded => rfl
  | remoteUploaded => rfl
  | localSpilled => rfl
  | remoteSpilled => rfl

theorem settledRestored {t clean after ys} (there : Represents after (settled clean t) ys)
    (free : after.freeSlots = []) : Restored layout t clean after := by
  have tracked : ∀ offset, entryAt after offset = (entryAt t offset).map (restoredEntry clean) := by
    intro offset
    rw [← there.found, settledFind]
  refine ⟨tracked, fun unclean offset e found => ?_, there.bytes.symm, ⟨there.cap.symm, there.generation.symm⟩, free,
    fun idx inside => ?_, ⟨ys, there.links, there.listed⟩, fun entries ops => answersAgree there ops⟩
  · rw [tracked, unclean] at found
    obtain ⟨old, _, rfl⟩ := Option.map_eq_some_iff.mp found
    exact restoredRemote old
  · rcases there.slots.cover idx inside with mem | mapped
    · rw [free] at mem
      cases mem
    · exact ⟨_, mapped, fun offset found => (there.slots.mapped offset idx found).2.symm⟩

theorem fieldTaken {bytes : Bytes} {n start width : Nat} (inside : start + width ≤ n) :
    field (bytes.take n) start width = field bytes start width := by
  unfold field
  rw [List.drop_take, List.take_take, Nat.min_eq_left (by omega)]

theorem countField (t : Table) (clean : Bool) (few : (rows t).length < 2 ^ 32) :
    field (headerImage t clean ++ (rows t).flatMap rowImage) 25 4 = (rows t).length := by
  have header : headerImage t clean = (littleEndian 4 residencyMagic ++ littleEndian 1 clean.toNat ++
      littleEndian 8 t.cap ++ littleEndian 8 t.residentBytes ++ littleEndian 4 t.generation) ++
      littleEndian 4 (rows t).length := rfl
  unfold field
  rw [header, List.append_assoc, List.drop_left' (by simp), List.take_left' (by simp), ofLittleEndianBack]
  exact Nat.mod_eq_of_lt few

theorem truncatedRefused {t : Table} {clean : Bool} (few : (rows t).length < 2 ^ 32) (before : Table) {n : Nat}
    (short : n < 29 + 22 * (rows t).length) :
    (deserialize layout before ((headerImage t clean ++ (rows t).flatMap rowImage).take n)).2 = false := by
  refine Bool.eq_false_iff.mpr fun done => ?_
  obtain ⟨header, _, fit, _⟩ := (accepted before _).mp done
  rw [List.length_take] at header fit
  rw [fieldTaken (by omega), countField t clean few] at fit
  omega

/-! ## The bytes that a run has charged -/

theorem localBytesCharged {w} (inv : ResidencyRuns.Invariant w) : localBytes (rows w.table) ≤ w.table.residentBytes := by
  obtain ⟨r, xs, rep⟩ := inv.table
  have distinct := rowsDistinct rep
  have tracked : ∀ s ∈ rows w.table, s.entry.state.hasLocalBytes = true → (s.offset, s.entry.size) ∈ w.locals := by
    intro s mem local_
    have kept := (inv.entry s.offset s.entry (rowMapped rep mem)).tracked
    rw [if_pos local_] at kept
    exact kept
  rw [inv.bytes]
  generalize rows w.table = l at *
  have apart : ((l.filter fun s => s.entry.state.hasLocalBytes).map fun s => (s.offset, s.entry.size)).Nodup := by
    refine List.Nodup.of_map Prod.fst ?_
    rw [List.map_map]
    exact distinct.sublist (List.filter_sublist.map _)
  have inside : ((l.filter fun s => s.entry.state.hasLocalBytes).map fun s => (s.offset, s.entry.size)) ⊆ w.locals := by
    intro c mem
    obtain ⟨s, there, rfl⟩ := List.mem_map.mp mem
    obtain ⟨mem, local_⟩ := List.mem_filter.mp there
    exact tracked s mem local_
  obtain ⟨part, perm, sub⟩ := List.subperm_of_subset apart inside
  have whole : localBytes l =
      (((l.filter fun s => s.entry.state.hasLocalBytes).map fun s => (s.offset, s.entry.size)).map Prod.snd).sum := by
    clear apart inside perm distinct tracked
    induction l with
    | nil => rfl
    | cons s rest ih =>
      rw [localBytes, List.map_cons, List.sum_cons, List.filter_cons]
      rw [localBytes] at ih
      split
      · rename_i local_
        rw [List.map_cons, List.map_cons, List.sum_cons, ← ih]
      · rw [← ih, Nat.zero_add]
  rw [whole, ← (perm.map Prod.snd).sum_eq]
  exact (sub.map Prod.snd).sum_le_sum fun _ _ => Nat.zero_le _

theorem snapshotRestored {t} (reach : Reached layout t) (clean : Bool) (before : Table) {image}
    (image_ : serialize t clean = some image) :
    (deserialize layout before image).2 = true ∧ Restored layout t clean (deserialize layout before image).1 ∧
      (∀ n < image.length, (deserialize layout before (image.take n)).2 = false) ∧
      (∀ bytes, (deserialize layout before bytes).2 = true ↔ WellFormed bytes) ∧
      (∀ w, Transition.Reachable ((ResidencyRuns.system layout).under ResidencyRuns.StepSound) w → w.table = t →
        localBytes (rows t) ≤ t.residentBytes) := by
  obtain ⟨r, xs, rep, fits⟩ := reachedRepresents reach
  obtain ⟨rfl, length, few⟩ := serializeImage image_
  obtain ⟨after, done, ⟨ys, there⟩, free⟩ := @settledRepresents layout t r xs rep fits few before clean
  refine ⟨by rw [done], by rw [done]; exact settledRestored there free, fun n short => ?_, accepted before,
    fun w run same => ?_⟩
  · exact truncatedRefused few before (length ▸ short)
  · exact same ▸ localBytesCharged (Transition.reachableInvariant ResidencyRuns.runInvariant run)

/-! One blob is uploaded and one spilled; the session ends uncleanly. -/

def sampleOperations : List Operation :=
  [.setCap 256, .accountAlloc 64, .accountAlloc 32, .markUploaded 128 64 7, .markSpilled 192 32 9]

def actAll (ops : List Operation) : Table :=
  ops.foldl (fun t op => (act (appendLayout Nat Nat) t op).1) ResidencySlab.empty

theorem reachedAll {ops : List Operation} (range : ∀ op ∈ ops, InRange op) :
    Reached (appendLayout Nat Nat) (actAll ops) := by
  unfold actAll
  induction ops using List.reverseRecOn with
  | nil => exact .empty
  | append_singleton ops op ih =>
    rw [List.foldl_append]
    exact .act op (ih fun other mem => range other (List.mem_append_left _ mem)) (range op (by simp))

theorem sampleReached : Reached (appendLayout Nat Nat) (actAll sampleOperations) :=
  reachedAll (by simp [sampleOperations, InRange])

theorem sampleRestored : ∃ image, serialize (actAll sampleOperations) false = some image ∧
    Restored (appendLayout Nat Nat) (actAll sampleOperations) false
      (deserialize (appendLayout Nat Nat) ResidencySlab.empty image).1 :=
  ⟨_, rfl, (snapshotRestored sampleReached false ResidencySlab.empty rfl).2.1⟩

/-! The first 13 bytes of a snapshot are refused, with the limit already overwritten. -/

theorem refusedFilled : ¬∀ layout t, Reached layout t → ∀ clean image, serialize t clean = some image →
    ∀ before, Reached layout before → ∀ n < image.length, deserialize layout before (image.take n) = (before, false) := by
  intro all
  have reach : Reached (appendLayout Nat Nat) (actAll [.setCap 5]) := reachedAll (by simp [InRange])
  have kept := all _ _ reach true _ rfl ResidencySlab.empty .empty 13 (by decide)
  have cap := congrArg (fun after => after.1.cap) kept
  exact absurd cap (by decide)

end Dewfall.ResidencyBytes
