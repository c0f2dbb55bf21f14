import Dewfall.Core.ResidencySlab
import Dewfall.General.Transition

/-! The residency table over whole runs of its client. Beside the table stand the local copies that
were charged and not dropped, the reads in flight, and the remote facts of the snapshot that is being
written and of the last one committed. Punching itself and the bytes of a snapshot are left out. -/
namespace Dewfall.ResidencyRuns
open General General.LinkedList General.Transition
open BlobResidency (Entry Residency)
open ResidencySlab (Table Represents Slots Mapped slot entryAt)

structure World where
  table : Table
  locals : List (Nat × Nat)
  reads : List Nat
  pending : Option (Nat × (Nat → Option Nat))
  committed : Nat → Option Nat

def start : World := ⟨ResidencySlab.empty, [], [], none, fun _ => none⟩

inductive Action where
  | charge (offset size : Nat)
  | settle (offset size : Nat)
  | markUploaded (offset size remoteId : Nat)
  | markSpilled (offset size remoteId : Nat)
  | markSpilledRemote (offset size remoteId : Nat)
  -- The disk is full: a charged blob goes to a segment, and its charge is taken back.
  | divert (offset size remoteId : Nat)
  | snapshot
  | commit
  | evict (offset : Nat)
  | dropSpilledLocal (offset : Nat)
  | forget (offset : Nat)
  | touch (offset : Nat)
  | beginRead (offset : Nat)
  | endRead (offset : Nat)
  deriving DecidableEq, Repr

def facts (t : Table) (offset : Nat) : Option Nat := (entryAt t offset).map Entry.remoteId

def without (locals : List (Nat × Nat)) (offset : Nat) : List (Nat × Nat) := locals.filter fun c => c.1 ≠ offset

def dropped (w : World) (offset : Nat) : Option Table → World
  | none => w
  | some t => { w with table := t, locals := without w.locals offset }

variable (layout : Layout Nat Nat)

def forgotten (w : World) (offset : Nat) : World :=
  match ResidencySlab.forget layout w.table offset with
  | none => w
  | some (t, _) => { w with
      table := t
      locals := if ((entryAt w.table offset).map fun e => e.state.hasLocalBytes).getD false
        then without w.locals offset else w.locals }

def perform (w : World) : Action → World
  | .charge offset size =>
    { w with table := ResidencySlab.accountAlloc w.table size, locals := (offset, size) :: w.locals }
  | .settle offset size =>
    { w with table := ResidencySlab.accountFreed w.table size, locals := without w.locals offset }
  | .markUploaded offset size remoteId =>
    { w with table := (ResidencySlab.markUploaded layout w.table offset size remoteId).1 }
  | .markSpilled offset size remoteId => { w with table := ResidencySlab.markSpilled layout w.table offset size remoteId }
  | .markSpilledRemote offset size remoteId =>
    { w with table := ResidencySlab.markSpilledRemote layout w.table offset size remoteId }
  | .divert offset size remoteId =>
    { w with
      table := ResidencySlab.accountFreed (ResidencySlab.markSpilledRemote layout w.table offset size remoteId) size
      locals := without w.locals offset }
  | .snapshot =>
    let (t, generation) := ResidencySlab.serializeGeneration w.table
    { w with table := t, pending := some (generation, facts w.table) }
  | .commit =>
    match w.pending with
    | none => w
    | some (generation, recorded) => { w with
        table := ResidencySlab.commitDurable w.table generation
        pending := none
        committed := recorded }
  | .evict offset => dropped w offset (ResidencySlab.evict w.table offset)
  | .dropSpilledLocal offset => dropped w offset (ResidencySlab.dropSpilledLocal w.table offset)
  | .forget offset => forgotten layout w offset
  | .touch offset => { w with table := ResidencySlab.touch w.table offset }
  | .beginRead offset =>
    { w with table := ResidencySlab.beginLocalRead w.table offset, reads := offset :: w.reads }
  | .endRead offset =>
    { w with table := ResidencySlab.endLocalRead w.table offset, reads := w.reads.erase offset }

def Allowed (w : World) : Action → Prop
  | .commit => w.pending.isSome
  | .beginRead offset => (entryAt w.table offset).isSome
  | .endRead offset => offset ∈ w.reads
  | _ => True

instance (w a) : Decidable (Allowed w a) := by
  cases a <;> dsimp only [Allowed] <;> infer_instance

def system : System World Action := System.ofFunction start Allowed (perform layout)

-- A new entry is for a copy that was charged, or for a blob without one; no read of an earlier entry
-- of its offset is left.
def Fresh (w : World) (offset size : Nat) (local_ : Bool) : Prop :=
  w.reads.count offset = 0 ∧ if local_ then (offset, size) ∈ w.locals else offset ∉ w.locals.map Prod.fst

local instance pairsLawful : LawfulBEq (Nat × Nat) := inferInstance

instance (w offset size local_) : Decidable (Fresh w offset size local_) :=
  inferInstanceAs (Decidable (w.reads.count offset = 0 ∧
    if local_ then (offset, size) ∈ w.locals else offset ∉ w.locals.map Prod.fst))

def StepSound (w : World) : Action → Prop
  | .charge offset size => offset ∉ w.locals.map Prod.fst ∧ entryAt w.table offset = none ∧
      w.table.residentBytes + size < 2 ^ 64
  | .settle offset size => (offset, size) ∈ w.locals ∧ entryAt w.table offset = none
  | .markUploaded offset size _ => match entryAt w.table offset with
    | none => Fresh w offset size true
    | some e => e.size = size
  | .markSpilled offset size _ => match entryAt w.table offset with
    | none => Fresh w offset size true
    | some e => e.size = size ∧ e.state.hasLocalBytes = true
  | .markSpilledRemote offset size _ => match entryAt w.table offset with
    | none => Fresh w offset size false
    | some e => e.size = size ∧ e.state.hasLocalBytes = false
  | .divert offset size _ => w.reads.count offset = 0 ∧ (offset, size) ∈ w.locals ∧ entryAt w.table offset = none
  | .snapshot => w.table.generation + 1 < 2 ^ 32
  | .beginRead offset => w.reads.count offset + 1 < 2 ^ 16
  | _ => True

instance (w a) : Decidable (StepSound w a) := by
  cases a <;> dsimp only [StepSound]
  all_goals first
    | infer_instance
    | (split <;> infer_instance)

structure Sound (w : World) : Prop where
  lru : ∃ xs, Holds w.table.links xs ∧
    ∀ idx, idx ∈ xs ↔ Mapped w.table idx ∧ (slot w.table idx).entry.state = .localUploaded
  free : w.table.freeSlots.Nodup
  slots : ∀ idx < w.table.slab.length, (idx ∈ w.table.freeSlots ∧ ∀ offset, w.table.map.find offset ≠ some idx) ∨
    (idx ∉ w.table.freeSlots ∧ ∃! offset, w.table.map.find offset = some idx)
  bytes : w.table.residentBytes = (w.locals.map Prod.snd).sum
  tracked : ∀ offset e, entryAt w.table offset = some e →
    if e.state.hasLocalBytes then (offset, e.size) ∈ w.locals else offset ∉ w.locals.map Prod.fst
  evicted : ∀ offset after, ResidencySlab.evict w.table offset = some after →
    w.committed offset = facts w.table offset ∧ w.reads.count offset = 0
  dropped : ∀ offset after, ResidencySlab.dropSpilledLocal w.table offset = some after →
    w.committed offset = facts w.table offset ∧ w.reads.count offset = 0
  punched : ∀ offset after f, ResidencySlab.forget layout w.table offset = some (after, f) → f.punchLocal = true →
    w.reads.count offset = 0
  victim : ∀ offset, ResidencySlab.pickEvictVictim w.table = some offset →
    ∃ after, ResidencySlab.evict w.table offset = some after

variable {layout}

/-! ## The invariant -/

structure EntryKept (w : World) (offset : Nat) (e : Entry) : Prop where
  tracked : if e.state.hasLocalBytes then (offset, e.size) ∈ w.locals else offset ∉ w.locals.map Prod.fst
  reads : e.inflightLocalReads = w.reads.count offset
  few : w.reads.count offset < 2 ^ 16
  durable : e.durable = true → w.committed offset = some e.remoteId ∧ e.markedGeneration < w.table.generation
  marked : e.markedGeneration ≤ w.table.generation
  pending : ∀ generation recorded, w.pending = some (generation, recorded) → e.markedGeneration ≤ generation →
    recorded offset = some e.remoteId

structure Invariant (w : World) : Prop where
  table : ∃ r xs, Represents w.table r xs
  entry : ∀ offset e, entryAt w.table offset = some e → EntryKept w offset e
  distinct : (w.locals.map Prod.fst).Nodup
  bytes : w.table.residentBytes = (w.locals.map Prod.snd).sum
  pending : ∀ generation recorded, w.pending = some (generation, recorded) → generation + 1 = w.table.generation

theorem startInvariant : Invariant start := by
  refine ⟨⟨_, _, ResidencySlab.emptyRepresents⟩, fun offset e found => ?_, List.nodup_nil, rfl,
    fun generation recorded some_ => ?_⟩
  · cases found
  · cases some_

theorem withoutSum {locals : List (Nat × Nat)} {offset size : Nat} (distinct : (locals.map Prod.fst).Nodup)
    (mem : (offset, size) ∈ locals) :
    ((without locals offset).map Prod.snd).sum + size = (locals.map Prod.snd).sum := by
  induction locals with
  | nil => cases mem
  | cons c rest ih =>
    obtain ⟨fresh, distinct⟩ := List.nodup_cons.mp distinct
    rcases List.mem_cons.mp mem with same | later
    · cases same
      have whole : without rest offset = rest := by
        refine List.filter_eq_self.mpr fun d there => ?_
        have away : d.1 ≠ offset := by
          rintro rfl
          have here : d.1 ∈ rest.map Prod.fst := List.mem_map_of_mem there
          exact fresh here
        simpa using away
      have step : without ((offset, size) :: rest) offset = rest :=
        (List.filter_cons_of_neg (by simp)).trans whole
      rw [step, List.map_cons, List.sum_cons, Nat.add_comm]
    · have away : c.1 ≠ offset := fun same => fresh (same ▸ List.mem_map_of_mem (f := Prod.fst) later)
      have step : without (c :: rest) offset = c :: without rest offset :=
        List.filter_cons_of_pos (by simpa using away)
      rw [step, List.map_cons, List.sum_cons, List.map_cons, List.sum_cons, Nat.add_assoc, ih distinct later]

theorem withoutMem {locals : List (Nat × Nat)} {offset k size : Nat} (away : k ≠ offset) :
    ((k, size) ∈ without locals offset ↔ (k, size) ∈ locals) ∧
      (k ∈ (without locals offset).map Prod.fst ↔ k ∈ locals.map Prod.fst) := by
  constructor
  · simp [without, away]
  · simp only [without, List.mem_map, List.mem_filter]
    constructor
    · rintro ⟨c, ⟨mem, _⟩, rfl⟩
      exact ⟨c, mem, rfl⟩
    · rintro ⟨c, mem, rfl⟩
      exact ⟨c, ⟨mem, by simpa using away⟩, rfl⟩

theorem withoutDistinct {locals : List (Nat × Nat)} (offset : Nat) (distinct : (locals.map Prod.fst).Nodup) :
    ((without locals offset).map Prod.fst).Nodup := distinct.sublist (List.filter_sublist.map _)

theorem withoutGone (locals : List (Nat × Nat)) (offset : Nat) : offset ∉ (without locals offset).map Prod.fst := by
  simp [without]

-- What a step leaves of the entries of other blobs.
structure Apart (w after : World) (offset : Nat) : Prop where
  locals : ∀ k, k ≠ offset → (∀ size, (k, size) ∈ after.locals ↔ (k, size) ∈ w.locals) ∧
    (k ∈ after.locals.map Prod.fst ↔ k ∈ w.locals.map Prod.fst)
  reads : ∀ k, k ≠ offset → after.reads.count k = w.reads.count k
  committed : after.committed = w.committed
  pending : after.pending = w.pending
  generation : after.table.generation = w.table.generation

theorem apartKept {w after : World} {offset k e} (apart : Apart w after offset) (away : k ≠ offset)
    (kept : EntryKept w k e) : EntryKept after k e := by
  obtain ⟨member, present⟩ := apart.locals k away
  refine ⟨?_, ?_, ?_, ?_, ?_, ?_⟩
  · rw [member, present]
    exact kept.tracked
  · rw [apart.reads k away]
    exact kept.reads
  · rw [apart.reads k away]
    exact kept.few
  · rw [apart.committed, apart.generation]
    exact kept.durable
  · rw [apart.generation]
    exact kept.marked
  · rw [apart.pending]
    exact kept.pending

-- A step that writes or removes the entry of one blob.
theorem apartInvariant {w after : World} {offset} (inv : Invariant w) (table : ∃ r xs, Represents after.table r xs)
    (apart : Apart w after offset) (others : ∀ k, k ≠ offset → entryAt after.table k = entryAt w.table k)
    (own : ∀ e, entryAt after.table offset = some e → EntryKept after offset e)
    (distinct : (after.locals.map Prod.fst).Nodup)
    (bytes : after.table.residentBytes = (after.locals.map Prod.snd).sum) : Invariant after := by
  refine ⟨table, fun k e found => ?_, distinct, bytes, ?_⟩
  · by_cases same : k = offset
    · subst same
      exact own e found
    · exact apartKept apart same (inv.entry k e (others k same ▸ found))
  · rw [apart.pending, apart.generation]
    exact inv.pending

/-! ## Remote facts -/

theorem markedInvariant {w : World} {t : Table} {offset size : Nat} {e : Entry} (inv : Invariant w)
    (table : ∃ r xs, Represents t r xs)
    (entries : ∀ k, entryAt t k = if k = offset then some e else entryAt w.table k)
    (bytes : t.residentBytes = w.table.residentBytes) (generation : t.generation = w.table.generation)
    (undurable : e.durable = false) (marked : e.markedGeneration = w.table.generation)
    (reads : e.inflightLocalReads = ((entryAt w.table offset).getD (ResidencySlab.fresh size)).inflightLocalReads)
    (tracked : if e.state.hasLocalBytes then (offset, e.size) ∈ w.locals else offset ∉ w.locals.map Prod.fst)
    (unread : entryAt w.table offset = none → w.reads.count offset = 0) : Invariant { w with table := t } := by
  have apart : Apart w { w with table := t } offset :=
    ⟨fun _ _ => ⟨fun _ => Iff.rfl, Iff.rfl⟩, fun _ _ => rfl, rfl, rfl, generation⟩
  refine apartInvariant inv table apart (fun k away => by rw [entries, if_neg away]) (fun f found => ?_) inv.distinct
    (bytes.trans inv.bytes)
  rw [entries, if_pos rfl] at found
  cases found
  have counted : e.inflightLocalReads = w.reads.count offset ∧ w.reads.count offset < 2 ^ 16 := by
    rw [reads]
    cases old : entryAt w.table offset with
    | none =>
      rw [unread old]
      exact ⟨rfl, by decide⟩
    | some f => exact ⟨(inv.entry offset f old).reads, (inv.entry offset f old).few⟩
  refine ⟨tracked, counted.1, counted.2, fun durable => ?_, ?_, fun g recorded some_ le => ?_⟩
  · exact absurd (undurable.symm.trans durable) (by decide)
  · show _ ≤ t.generation
    rw [marked, generation]
  · have next := inv.pending g recorded some_
    omega

theorem shippedLocal (state : BlobResidency.State) : (BlobResidency.shipped state).hasLocalBytes = state.hasLocalBytes := by
  cases state with
  | localUploaded => rfl
  | remoteUploaded => rfl
  | localSpilled => rfl
  | remoteSpilled => rfl

-- The entry that a mark starts from: the tracked one, or a fresh one.
theorem startedFrom {w : World} {r xs} (rep : Represents w.table r xs) (offset size : Nat) :
    BlobResidency.getOrCreate r offset size = (entryAt w.table offset).getD (ResidencySlab.fresh size) := by
  rw [BlobResidency.getOrCreate, rep.found]
  rfl

theorem uploadedInvariant {w : World} {offset size remoteId} (inv : Invariant w)
    (sound : StepSound w (.markUploaded offset size remoteId)) :
    Invariant (perform layout w (.markUploaded offset size remoteId)) := by
  obtain ⟨r, xs, rep⟩ := inv.table
  obtain ⟨⟨xs', after⟩, _⟩ := @ResidencySlab.uploadedRepresents layout (appendLayout Nat Entry) _ _ _ rep offset size remoteId
  have from_ := startedFrom rep offset size
  have entries : ∀ k, entryAt (ResidencySlab.markUploaded layout w.table offset size remoteId).1 k =
      if k = offset then some { BlobResidency.getOrCreate r offset size with
        state := BlobResidency.shipped (BlobResidency.getOrCreate r offset size).state
        remoteId := remoteId
        durable := false
        markedGeneration := r.generation } else entryAt w.table k := by
    intro k
    rw [← after.found, ← rep.found]
    exact DenseMap.findInsert _ r.map offset _ k
  refine @markedInvariant w _ offset size _ inv ⟨_, _, after⟩ entries (after.bytes.symm.trans rep.bytes)
    (after.generation.symm.trans rep.generation) rfl rep.generation ?_ ?_ ?_
  · rw [← from_]
  · dsimp only
    rw [shippedLocal, from_]
    dsimp only [StepSound] at sound
    cases old : entryAt w.table offset with
    | none =>
      rw [old] at sound
      exact sound.2
    | some e =>
      rw [old] at sound
      exact (inv.entry offset e old).tracked
  · intro none_
    dsimp only [StepSound] at sound
    rw [none_] at sound
    exact sound.1

theorem spilledInvariant {w : World} {offset size remoteId} (state : BlobResidency.State) (inv : Invariant w)
    (remote : state ≠ .localUploaded)
    (tracked : if state.hasLocalBytes then (offset, ((entryAt w.table offset).getD (ResidencySlab.fresh size)).size) ∈ w.locals
      else offset ∉ w.locals.map Prod.fst)
    (unread : entryAt w.table offset = none → w.reads.count offset = 0) :
    Invariant { w with table := ResidencySlab.markSpilledAs layout state w.table offset size remoteId } := by
  obtain ⟨r, xs, rep⟩ := inv.table
  obtain ⟨xs', after⟩ := @ResidencySlab.spilledRepresents layout (appendLayout Nat Entry) _ _ _ rep state remote offset size
    remoteId
  have from_ := startedFrom rep offset size
  have entries : ∀ k, entryAt (ResidencySlab.markSpilledAs layout state w.table offset size remoteId) k =
      if k = offset then some { BlobResidency.getOrCreate r offset size with
        state := state
        remoteId := remoteId
        durable := false
        markedGeneration := r.generation } else entryAt w.table k := by
    intro k
    rw [← after.found, ← rep.found]
    exact DenseMap.findInsert _ r.map offset _ k
  refine @markedInvariant w _ offset size _ inv ⟨_, _, after⟩ entries (after.bytes.symm.trans rep.bytes)
    (after.generation.symm.trans rep.generation) rfl rep.generation ?_ ?_ unread
  · rw [← from_]
  · dsimp only
    rw [from_]
    exact tracked

/-! ## Local copies that are charged or dropped -/

theorem chargedInvariant {w : World} {offset size} (inv : Invariant w) (sound : StepSound w (.charge offset size)) :
    Invariant (perform layout w (.charge offset size)) := by
  obtain ⟨away, untracked, room⟩ := sound
  obtain ⟨r, xs, rep⟩ := inv.table
  have bytes : u64 (w.table.residentBytes + size) = w.table.residentBytes + size := Nat.mod_eq_of_lt room
  have after := ResidencySlab.countersRepresents rep (u64 (w.table.residentBytes + size)) w.table.generation
  have apart : Apart w (perform layout w (.charge offset size)) offset := by
    refine ⟨fun k other => ⟨fun size' => ?_, ?_⟩, fun _ _ => rfl, rfl, rfl, rfl⟩
    · simp [perform, other]
    · simp [perform, other]
  refine apartInvariant inv ⟨_, _, after⟩ apart (fun _ _ => rfl) (fun e found => ?_) ?_ ?_
  · have there : entryAt w.table offset = some e := found
    rw [untracked] at there
    cases there
  · exact List.nodup_cons.mpr ⟨away, inv.distinct⟩
  · show u64 (w.table.residentBytes + size) = _
    rw [bytes, inv.bytes]
    exact Nat.add_comm _ _

theorem settledInvariant {w : World} {offset size} (inv : Invariant w) (sound : StepSound w (.settle offset size)) :
    Invariant (perform layout w (.settle offset size)) := by
  obtain ⟨mem, untracked⟩ := sound
  obtain ⟨r, xs, rep⟩ := inv.table
  have after := ResidencySlab.countersRepresents rep (w.table.residentBytes - size) w.table.generation
  have apart : Apart w (perform layout w (.settle offset size)) offset :=
    ⟨fun k other => ⟨fun _ => (withoutMem other).1, (@withoutMem _ _ _ 0 other).2⟩, fun _ _ => rfl, rfl, rfl, rfl⟩
  refine apartInvariant inv ⟨_, _, after⟩ apart (fun _ _ => rfl) (fun e found => ?_)
    (withoutDistinct offset inv.distinct) ?_
  · have there : entryAt w.table offset = some e := found
    rw [untracked] at there
    cases there
  · show w.table.residentBytes - size = _
    rw [inv.bytes, ← withoutSum inv.distinct mem]
    exact Nat.add_sub_cancel _ _

theorem freedMarked (state : BlobResidency.State) (t : Table) (offset size remoteId bytes : Nat) :
    ResidencySlab.accountFreed (ResidencySlab.markSpilledAs layout state t offset size remoteId) bytes =
      ResidencySlab.markSpilledAs layout state (ResidencySlab.accountFreed t bytes) offset size remoteId := by
  unfold ResidencySlab.markSpilledAs ResidencySlab.getOrCreate
  dsimp only [ResidencySlab.accountFreed]
  split
  · rfl
  · split
    · rfl
    · rfl

-- As when the charge is taken back first.
theorem divertedInvariant {w : World} {offset size remoteId} (inv : Invariant w)
    (sound : StepSound w (.divert offset size remoteId)) : Invariant (perform layout w (.divert offset size remoteId)) := by
  obtain ⟨unread, mem, untracked⟩ := sound
  have settled := @settledInvariant layout w offset size inv ⟨mem, untracked⟩
  have gone := withoutGone w.locals offset
  have marked := @spilledInvariant layout (perform layout w (.settle offset size)) offset size remoteId .remoteSpilled
    settled (by decide) (by rw [if_neg (by decide)]; exact gone) fun _ => unread
  dsimp only [perform, ResidencySlab.markSpilledRemote] at marked ⊢
  rw [freedMarked]
  exact marked

-- Evicting a local copy and dropping a spilled one differ in the state they leave only.
theorem droppedInvariant {w : World} {t : Table} {offset} {e : Entry} {state : BlobResidency.State} (inv : Invariant w)
    (table : ∃ r xs, Represents t r xs) (found : entryAt w.table offset = some e)
    (entries : ∀ k, entryAt t k = if k = offset then some { e with state := state } else entryAt w.table k)
    (local_ : e.state.hasLocalBytes = true) (remote : state.hasLocalBytes = false)
    (bytes : t.residentBytes = w.table.residentBytes - e.size) (generation : t.generation = w.table.generation) :
    Invariant (dropped w offset (some t)) := by
  have kept := inv.entry offset e found
  have mem := kept.tracked
  rw [local_, if_pos rfl] at mem
  have apart : Apart w (dropped w offset (some t)) offset :=
    ⟨fun k other => ⟨fun _ => (withoutMem other).1, (@withoutMem _ _ _ 0 other).2⟩, fun _ _ => rfl, rfl, rfl, generation⟩
  refine apartInvariant inv table apart (fun k away => ?_) (fun f there => ?_) (withoutDistinct offset inv.distinct) ?_
  · exact (entries k).trans (if_neg away)
  · have same : entryAt t offset = some f := there
    rw [entries, if_pos rfl] at same
    cases same
    refine ⟨?_, kept.reads, kept.few, ?_, ?_, kept.pending⟩
    · rw [remote, if_neg (by decide)]
      exact withoutGone w.locals offset
    · show _ → _ ∧ _ < t.generation
      rw [generation]
      exact kept.durable
    · show _ ≤ t.generation
      rw [generation]
      exact kept.marked
  · show t.residentBytes = _
    rw [bytes, inv.bytes, ← withoutSum inv.distinct mem]
    exact Nat.add_sub_cancel _ _

theorem evictedInvariant {w : World} {offset} (inv : Invariant w) :
    Invariant (dropped w offset (ResidencySlab.evict w.table offset)) := by
  obtain ⟨r, xs, rep⟩ := inv.table
  rcases ResidencySlab.evictedRepresents rep offset with ⟨none_, _⟩ | ⟨t, r', xs', some_, left, after⟩
  · rw [none_]
    exact inv
  · rw [some_]
    unfold BlobResidency.evict at left
    cases found : BlobResidency.find r offset with
    | none => simp [found] at left
    | some e =>
      rw [found] at left
      dsimp only at left
      split at left
      · rename_i allowed
        simp only [Bool.and_eq_true, decide_eq_true_eq] at allowed
        cases Option.some.inj left
        refine @droppedInvariant w t offset e .remoteUploaded inv ⟨_, _, after⟩ ((rep.found offset).symm.trans found) (fun k => ?_)
          (by rw [allowed.1]; rfl) rfl ?_ (after.generation.symm.trans rep.generation)
        · rw [← after.found, ← rep.found]
          exact DenseMap.findAssign found _ k
        · exact after.bytes.symm.trans (congrArg (· - _) rep.bytes)
      · cases left

theorem drainedInvariant {w : World} {offset} (inv : Invariant w) :
    Invariant (dropped w offset (ResidencySlab.dropSpilledLocal w.table offset)) := by
  obtain ⟨r, xs, rep⟩ := inv.table
  rcases ResidencySlab.droppedRepresents rep offset with ⟨none_, _⟩ | ⟨t, r', xs', some_, left, after⟩
  · rw [none_]
    exact inv
  · rw [some_]
    unfold BlobResidency.dropSpilledLocal at left
    cases found : BlobResidency.find r offset with
    | none => simp [found] at left
    | some e =>
      rw [found] at left
      dsimp only at left
      split at left
      · rename_i allowed
        simp only [Bool.and_eq_true, decide_eq_true_eq] at allowed
        cases Option.some.inj left
        refine @droppedInvariant w t offset e .remoteSpilled inv ⟨_, _, after⟩ ((rep.found offset).symm.trans found) (fun k => ?_)
          (by rw [allowed.1]; rfl) rfl ?_ (after.generation.symm.trans rep.generation)
        · rw [← after.found, ← rep.found]
          exact DenseMap.findAssign found _ k
        · exact after.bytes.symm.trans (congrArg (· - _) rep.bytes)
      · cases left

theorem forgottenInvariant {w : World} {offset} (inv : Invariant w) : Invariant (forgotten layout w offset) := by
  obtain ⟨r, xs, rep⟩ := inv.table
  unfold forgotten
  rcases @ResidencySlab.forgottenRepresents layout (appendLayout Nat Entry) _ _ _ rep offset with
    ⟨none_, _⟩ | ⟨t, r', xs', f, some_, left, after⟩
  · rw [none_]
    exact inv
  · rw [some_]
    unfold BlobResidency.forget at left
    cases found : BlobResidency.find r offset with
    | none => simp [found] at left
    | some e =>
      have here : entryAt w.table offset = some e := (rep.found offset).symm.trans found
      have kept := inv.entry offset e here
      rw [found] at left
      dsimp only at left ⊢
      rw [here]
      dsimp only [Option.map_some, Option.getD_some]
      have erased : ∀ k, r'.map.find k = if k = offset then none else r.map.find k := by
        intro k
        cases Option.some.inj left
        split
        · exact DenseMap.findErase offset k
        · exact DenseMap.findErase offset k
      have entries : ∀ k, entryAt t k = if k = offset then none else entryAt w.table k := by
        intro k
        rw [← after.found, ← rep.found]
        exact erased k
      have generation : t.generation = w.table.generation := by
        rw [← after.generation, ← rep.generation]
        cases Option.some.inj left
        split
        · rfl
        · rfl
      have own : ∀ f, entryAt t offset = some f → False := by
        intro f there
        rw [entries, if_pos rfl] at there
        cases there
      by_cases local_ : e.state.hasLocalBytes = true
      · rw [if_pos local_] at left ⊢
        have mem := kept.tracked
        rw [if_pos local_] at mem
        have bytes : t.residentBytes = w.table.residentBytes - e.size := by
          rw [← after.bytes, ← rep.bytes]
          cases Option.some.inj left
          rfl
        refine apartInvariant inv ⟨_, _, after⟩ ⟨fun k other => ⟨fun _ => (withoutMem other).1,
          (@withoutMem _ _ _ 0 other).2⟩, fun _ _ => rfl, rfl, rfl, generation⟩ (fun k away => ?_)
          (fun f there => (own f there).elim) (withoutDistinct offset inv.distinct) ?_
        · exact (entries k).trans (if_neg away)
        · show t.residentBytes = _
          rw [bytes, inv.bytes, ← withoutSum inv.distinct mem]
          exact Nat.add_sub_cancel _ _
      · rw [if_neg local_] at left ⊢
        have bytes : t.residentBytes = w.table.residentBytes := by
          rw [← after.bytes, ← rep.bytes]
          cases Option.some.inj left
          rfl
        refine apartInvariant inv ⟨_, _, after⟩ ⟨fun _ _ => ⟨fun _ => Iff.rfl, Iff.rfl⟩, fun _ _ => rfl, rfl, rfl,
          generation⟩ (fun k away => ?_) (fun f there => (own f there).elim) inv.distinct (bytes.trans inv.bytes)
        exact (entries k).trans (if_neg away)

/-! ## Reads -/

theorem readInvariant {w after : World} {offset : Nat} {e : Entry} {n : Nat} (inv : Invariant w)
    (table : ∃ r xs, Represents after.table r xs)
    (found : entryAt w.table offset = some e)
    (entries : ∀ k, entryAt after.table k =
      if k = offset then some { e with inflightLocalReads := n } else entryAt w.table k)
    (apart : Apart w after offset) (locals : after.locals = w.locals)
    (bytes : after.table.residentBytes = w.table.residentBytes)
    (reads : n = after.reads.count offset) (few : after.reads.count offset < 2 ^ 16) : Invariant after := by
  have kept := inv.entry offset e found
  refine apartInvariant inv table apart (fun k away => (entries k).trans (if_neg away)) (fun f there => ?_)
    (locals ▸ inv.distinct) (by rw [bytes, locals]; exact inv.bytes)
  rw [entries, if_pos rfl] at there
  cases there
  refine ⟨?_, reads, few, ?_, ?_, ?_⟩
  · rw [locals]
    exact kept.tracked
  · rw [apart.committed, apart.generation]
    exact kept.durable
  · rw [apart.generation]
    exact kept.marked
  · rw [apart.pending]
    exact kept.pending

theorem beginInvariant {w : World} {offset} (inv : Invariant w) (tracked : (entryAt w.table offset).isSome)
    (few : w.reads.count offset + 1 < 2 ^ 16) : Invariant (perform layout w (.beginRead offset)) := by
  obtain ⟨r, xs, rep⟩ := inv.table
  obtain ⟨e, here⟩ := Option.isSome_iff_exists.mp tracked
  have found : BlobResidency.find r offset = some e := (rep.found offset).trans here
  have after := ResidencySlab.beginRepresents rep offset
  have step : BlobResidency.beginLocalRead r offset = { r with
      map := (r.map.assign offset { e with inflightLocalReads := (e.inflightLocalReads + 1) % 2 ^ 16 }) } := by
    rw [BlobResidency.beginLocalRead, found]
  have kept := inv.entry offset e here
  have count : (perform layout w (.beginRead offset)).reads.count offset = w.reads.count offset + 1 :=
    List.count_cons_self
  refine @readInvariant w _ offset e ((e.inflightLocalReads + 1) % 2 ^ 16) inv ⟨_, _, after⟩ here (fun k => ?_)
    ⟨fun _ _ => ⟨fun _ => Iff.rfl, Iff.rfl⟩, fun k away => ?_, rfl, rfl, ?_⟩ rfl ?_ ?_ (by rw [count]; exact few)
  · show entryAt (ResidencySlab.beginLocalRead w.table offset) k = _
    rw [← after.found, step, ← rep.found]
    exact DenseMap.findAssign found _ k
  · exact List.count_cons_of_ne fun same => away same.symm
  · rw [step] at after
    exact after.generation.symm.trans rep.generation
  · rw [step] at after
    exact after.bytes.symm.trans rep.bytes
  · rw [count, kept.reads]
    exact Nat.mod_eq_of_lt few

theorem endInvariant {w : World} {offset} (inv : Invariant w) (mem : offset ∈ w.reads) :
    Invariant (perform layout w (.endRead offset)) := by
  obtain ⟨r, xs, rep⟩ := inv.table
  have after := ResidencySlab.endRepresents rep offset
  have away_ : ∀ k, k ≠ offset → (w.reads.erase offset).count k = w.reads.count k :=
    fun k away => List.count_erase_of_ne away
  have less : (w.reads.erase offset).count offset = w.reads.count offset - 1 := List.count_erase_self
  have some_ : 0 < w.reads.count offset := List.count_pos_iff.mpr mem
  cases found : BlobResidency.find r offset with
  | none =>
    have here : entryAt w.table offset = none := (rep.found offset).symm.trans found
    have step : BlobResidency.endLocalRead r offset = r := by rw [BlobResidency.endLocalRead, found]
    rw [step] at after
    refine @apartInvariant w _ offset inv ⟨_, _, after⟩ ⟨fun _ _ => ⟨fun _ => Iff.rfl, Iff.rfl⟩, away_, rfl, rfl,
      after.generation.symm.trans rep.generation⟩ (fun k _ => ?_) (fun e there => ?_) inv.distinct
      ((after.bytes.symm.trans rep.bytes).trans inv.bytes)
    · exact (after.found k).symm.trans (rep.found k)
    · have same : entryAt w.table offset = some e := ((rep.found offset).symm.trans (after.found offset)).trans there
      rw [here] at same
      cases same
  | some e =>
    have here : entryAt w.table offset = some e := (rep.found offset).symm.trans found
    have step : BlobResidency.endLocalRead r offset = { r with
        map := (r.map.assign offset { e with inflightLocalReads := e.inflightLocalReads - 1 }) } := by
      rw [BlobResidency.endLocalRead, found]
    have kept := inv.entry offset e here
    have few := kept.few
    refine @readInvariant w _ offset e (e.inflightLocalReads - 1) inv ⟨_, _, after⟩ here (fun k => ?_)
      ⟨fun _ _ => ⟨fun _ => Iff.rfl, Iff.rfl⟩, away_, rfl, rfl, ?_⟩ rfl ?_ ?_ ?_
    · show entryAt (ResidencySlab.endLocalRead w.table offset) k = _
      rw [← after.found, step, ← rep.found]
      exact DenseMap.findAssign found _ k
    · rw [step] at after
      exact after.generation.symm.trans rep.generation
    · rw [step] at after
      exact after.bytes.symm.trans rep.bytes
    · rw [kept.reads]
      exact less.symm
    · show (w.reads.erase offset).count offset < _
      omega

theorem touchedInvariant {w : World} {offset} (inv : Invariant w) : Invariant (perform layout w (.touch offset)) := by
  obtain ⟨r, xs, rep⟩ := inv.table
  obtain ⟨xs', after⟩ := ResidencySlab.touchedRepresents rep offset
  have find : ∀ k, BlobResidency.find (BlobResidency.touch r offset) k = BlobResidency.find r k := by
    intro k
    unfold BlobResidency.touch
    split
    · split
      · rfl
      · rfl
    · rfl
  have counters : (BlobResidency.touch r offset).residentBytes = r.residentBytes ∧
      (BlobResidency.touch r offset).generation = r.generation := by
    unfold BlobResidency.touch
    split
    · split
      · exact ⟨rfl, rfl⟩
      · exact ⟨rfl, rfl⟩
    · exact ⟨rfl, rfl⟩
  have generation : (ResidencySlab.touch w.table offset).generation = w.table.generation := by
    rw [← after.generation, counters.2, rep.generation]
  have entries : ∀ k, entryAt (ResidencySlab.touch w.table offset) k = entryAt w.table k := by
    intro k
    rw [← after.found, find, rep.found]
  refine @apartInvariant w _ offset inv ⟨_, _, after⟩ ⟨fun _ _ => ⟨fun _ => Iff.rfl, Iff.rfl⟩, fun _ _ => rfl,
    rfl, rfl, generation⟩ (fun k _ => entries k) (fun e there => ?_) inv.distinct ?_
  · have kept := inv.entry offset e ((entries offset).symm.trans there)
    refine ⟨kept.tracked, kept.reads, kept.few, ?_, ?_, kept.pending⟩
    · show _ → _ ∧ _ < (ResidencySlab.touch w.table offset).generation
      rw [generation]
      exact kept.durable
    · show _ ≤ (ResidencySlab.touch w.table offset).generation
      rw [generation]
      exact kept.marked
  · show (ResidencySlab.touch w.table offset).residentBytes = _
    rw [← after.bytes, counters.1, rep.bytes]
    exact inv.bytes

/-! ## Snapshots -/

theorem snapshotInvariant {w : World} (inv : Invariant w) (room : w.table.generation + 1 < 2 ^ 32) :
    Invariant (perform layout w .snapshot) := by
  obtain ⟨r, xs, rep⟩ := inv.table
  have next : u32 (w.table.generation + 1) = w.table.generation + 1 := Nat.mod_eq_of_lt room
  have after := ResidencySlab.countersRepresents rep w.table.residentBytes (u32 (w.table.generation + 1))
  refine ⟨⟨_, _, after⟩, fun offset e found => ?_, inv.distinct, inv.bytes, fun g recorded some_ => ?_⟩
  · have here : entryAt w.table offset = some e := found
    have kept := inv.entry offset e here
    refine ⟨kept.tracked, kept.reads, kept.few, fun durable => ?_, ?_, fun g recorded some_ _ => ?_⟩
    · have le := kept.durable durable
      show _ ∧ _ < u32 (w.table.generation + 1)
      rw [next]
      exact ⟨le.1, Nat.lt_succ_of_lt le.2⟩
    · show _ ≤ u32 (w.table.generation + 1)
      rw [next]
      exact Nat.le_succ_of_le kept.marked
    · cases some_
      rw [facts, here]
      rfl
  · cases some_
    exact next.symm

theorem committedInvariant {w : World} (inv : Invariant w) : Invariant (perform layout w .commit) := by
  obtain ⟨r, xs, rep⟩ := inv.table
  unfold perform
  dsimp only
  split
  · exact inv
  · rename_i generation recorded some_
    have after := ResidencySlab.committedRepresents rep generation
    have next := inv.pending generation recorded some_
    have entries : ∀ k, entryAt (ResidencySlab.commitDurable w.table generation) k =
        (entryAt w.table k).map (BlobResidency.settleDurable generation) := by
      intro k
      rw [← after.found, ← rep.found]
      exact DenseMap.findMapValues _ _ _
    refine ⟨⟨_, _, after⟩, fun offset e found => ?_, inv.distinct, inv.bytes, fun _ _ none_ => by cases none_⟩
    dsimp only at found
    rw [entries] at found
    obtain ⟨old, there, rfl⟩ := Option.map_eq_some_iff.mp found
    have kept := inv.entry offset old there
    have fields : (BlobResidency.settleDurable generation old).state = old.state ∧
        (BlobResidency.settleDurable generation old).size = old.size ∧
        (BlobResidency.settleDurable generation old).inflightLocalReads = old.inflightLocalReads ∧
        (BlobResidency.settleDurable generation old).remoteId = old.remoteId ∧
        (BlobResidency.settleDurable generation old).markedGeneration = old.markedGeneration := by
      unfold BlobResidency.settleDurable
      split
      · exact ⟨rfl, rfl, rfl, rfl, rfl⟩
      · exact ⟨rfl, rfl, rfl, rfl, rfl⟩
    obtain ⟨state, size, reads, remoteId, marked⟩ := fields
    refine ⟨by rw [state, size]; exact kept.tracked, reads.trans kept.reads, kept.few, fun durable => ?_,
      marked.trans_le kept.marked, fun _ _ none_ => by cases none_⟩
    have older : old.markedGeneration ≤ generation := by
      unfold BlobResidency.settleDurable at durable
      split at durable
      · rename_i settles
        simp only [Bool.and_eq_true, decide_eq_true_eq] at settles
        exact settles.2
      · have less := (kept.durable durable).2
        omega
    refine ⟨?_, ?_⟩
    · rw [remoteId]
      exact kept.pending generation recorded some_ older
    · show _ < w.table.generation
      omega

theorem performInvariant {w a} (inv : Invariant w) (sound : StepSound w a) (allowed : Allowed w a) :
    Invariant (perform layout w a) := by
  cases a with
  | charge offset size => exact chargedInvariant inv sound
  | settle offset size => exact settledInvariant inv sound
  | markUploaded offset size remoteId => exact uploadedInvariant inv sound
  | markSpilled offset size remoteId =>
    dsimp only [StepSound] at sound
    have local_ : BlobResidency.State.localSpilled.hasLocalBytes = true := rfl
    refine spilledInvariant .localSpilled inv (by decide) ?_ fun none_ => ?_
    · rw [if_pos local_]
      cases old : entryAt w.table offset with
      | none =>
        rw [old] at sound
        exact sound.2
      | some e =>
        rw [old] at sound
        have tracked := (inv.entry offset e old).tracked
        rw [if_pos sound.2] at tracked
        exact tracked
    · rw [none_] at sound
      exact sound.1
  | markSpilledRemote offset size remoteId =>
    dsimp only [StepSound] at sound
    refine spilledInvariant .remoteSpilled inv (by decide) ?_ fun none_ => ?_
    · rw [if_neg (by decide)]
      cases old : entryAt w.table offset with
      | none =>
        rw [old] at sound
        exact sound.2
      | some e =>
        rw [old] at sound
        have tracked := (inv.entry offset e old).tracked
        rw [if_neg (by rw [sound.2]; decide)] at tracked
        exact tracked
    · rw [none_] at sound
      exact sound.1
  | divert offset size remoteId => exact divertedInvariant inv sound
  | snapshot => exact snapshotInvariant inv sound
  | commit => exact committedInvariant inv
  | evict offset => exact evictedInvariant inv
  | dropSpilledLocal offset => exact drainedInvariant inv
  | forget offset => exact forgottenInvariant inv
  | touch offset => exact touchedInvariant inv
  | beginRead offset => exact beginInvariant inv allowed sound
  | endRead offset => exact endInvariant inv allowed

theorem runInvariant : Inductive ((system layout).under StepSound) Invariant := by
  constructor
  · intro w first
    cases first
    exact startInvariant
  · intro w a after inv step
    obtain ⟨sound, allowed, rfl⟩ := step
    exact performInvariant inv sound allowed

/-! ## What holds in every state -/

theorem evictableSound {w : World} {offset e} (inv : Invariant w) (found : entryAt w.table offset = some e)
    (ready : BlobResidency.evictable e = true) :
    w.committed offset = facts w.table offset ∧ w.reads.count offset = 0 := by
  have kept := inv.entry offset e found
  simp only [BlobResidency.evictable, Bool.and_eq_true, decide_eq_true_eq] at ready
  refine ⟨?_, kept.reads.symm.trans ready.2⟩
  rw [(kept.durable ready.1).1, facts, found]
  rfl

theorem slotsSound {w : World} {r xs} (rep : Represents w.table r xs) (idx : Nat) (inside : idx < w.table.slab.length) :
    (idx ∈ w.table.freeSlots ∧ ∀ offset, w.table.map.find offset ≠ some idx) ∨
      (idx ∉ w.table.freeSlots ∧ ∃! offset, w.table.map.find offset = some idx) := by
  have vacant := fun mem => (rep.slots.vacant idx mem).2
  rcases rep.slots.cover idx inside with mem | mapped
  · exact Or.inl ⟨mem, fun offset found => vacant mem (ResidencySlab.mappedOf rep.slots found)⟩
  · refine Or.inr ⟨fun mem => vacant mem mapped, _, mapped, fun offset found => ?_⟩
    exact (rep.slots.mapped offset idx found).2.symm

theorem victimSound {w : World} {r xs offset} (rep : Represents w.table r xs)
    (picked : ResidencySlab.pickEvictVictim w.table = some offset) :
    ∃ after, ResidencySlab.evict w.table offset = some after := by
  rw [ResidencySlab.pickAgrees rep, BlobResidency.pickEvictVictim] at picked
  have ready := List.find?_some picked
  have mem := List.mem_reverse.mp (List.mem_of_find?_eq_some picked)
  rw [rep.lru] at mem
  obtain ⟨idx, there, rfl⟩ := List.mem_map.mp mem
  obtain ⟨mapped, local_⟩ := (rep.listed idx).mp there
  rw [ResidencySlab.foundEntry rep mapped] at ready
  have found : w.table.map.find (slot w.table idx).offset = some idx := mapped
  unfold ResidencySlab.evict
  rw [found]
  dsimp only
  have allowed : (decide ((slot w.table idx).entry.state = .localUploaded) &&
      BlobResidency.evictable (slot w.table idx).entry) = true := by
    rw [local_]
    exact ready
  exact ⟨_, if_pos allowed⟩

theorem residencySound {w} (reach : Reachable ((system layout).under StepSound) w) : Sound layout w := by
  have inv := reachableInvariant runInvariant reach
  obtain ⟨r, xs, rep⟩ := inv.table
  refine ⟨⟨xs, rep.links, rep.listed⟩, rep.slots.free, slotsSound rep, inv.bytes,
    fun offset e found => (inv.entry offset e found).tracked, fun offset after evicts => ?_,
    fun offset after drops => ?_, fun offset after f forgets punch => ?_, fun offset => victimSound rep⟩
  · unfold ResidencySlab.evict at evicts
    cases found : w.table.map.find offset with
    | none => simp [found] at evicts
    | some idx =>
      rw [found] at evicts
      dsimp only at evicts
      split at evicts
      · rename_i allowed
        simp only [Bool.and_eq_true] at allowed
        exact evictableSound inv (by rw [entryAt, found]; rfl) allowed.2
      · cases evicts
  · unfold ResidencySlab.dropSpilledLocal at drops
    cases found : w.table.map.find offset with
    | none => simp [found] at drops
    | some idx =>
      rw [found] at drops
      dsimp only at drops
      split at drops
      · rename_i allowed
        simp only [Bool.and_eq_true] at allowed
        exact evictableSound inv (by rw [entryAt, found]; rfl) allowed.2
      · cases drops
  · unfold ResidencySlab.forget at forgets
    cases found : w.table.map.find offset with
    | none => simp [found] at forgets
    | some idx =>
      rw [found] at forgets
      dsimp only at forgets
      obtain ⟨_, rfl⟩ := Prod.mk.inj (Option.some.inj forgets)
      simp only [Bool.and_eq_true, decide_eq_true_eq] at punch
      have kept := inv.entry offset (slot w.table idx).entry (by rw [entryAt, found]; rfl)
      exact kept.reads.symm.trans punch.2

/-! One blob is uploaded and read, another one is spilled, a third finds the disk full; the checkpoint
commits the facts of the first two. -/

def spillingActions : List Action :=
  [.charge 128 64, .charge 192 32, .markUploaded 128 64 7, .markSpilled 192 32 9, .beginRead 128, .snapshot,
    .charge 208 8, .divert 208 8 5, .commit, .endRead 128, .dropSpilledLocal 192, .charge 224 16, .markUploaded 224 16 8,
    .forget 192, .touch 128]

theorem spillingSound :
    Sound (appendLayout Nat Nat) (spillingActions.foldl (perform (appendLayout Nat Nat)) start) :=
  residencySound (reachableAllowed (by decide))

/-! The counter of reads has 16 bits: with 65536 reads in flight a durable entry is evicted. -/

def readActions (n : Nat) : List Action :=
  [.charge 0 64, .markUploaded 0 64 7, .snapshot, .commit] ++ List.replicate n (.beginRead 0)

-- The state with `n` reads in flight.
def readBy (n : Nat) : World :=
  ⟨⟨⟨[(0, 0)], by decide⟩, [⟨0, ⟨64, .localUploaded, true, n % 2 ^ 16, 1, 7⟩⟩], [],
    ((readActions 0).foldl (perform (appendLayout Nat Nat)) start).table.links, 64, 0, 2⟩, [(0, 64)],
    List.replicate n 0, none, ((readActions 0).foldl (perform (appendLayout Nat Nat)) start).committed⟩

theorem readMore (n : Nat) : perform (appendLayout Nat Nat) (readBy n) (.beginRead 0) = readBy (n + 1) := by
  have count : (n % 2 ^ 16 + 1) % 2 ^ 16 = (n + 1) % 2 ^ 16 := Nat.mod_add_mod n (2 ^ 16) 1
  have step : perform (appendLayout Nat Nat) (readBy n) (.beginRead 0) =
      { readBy n with
        table := { (readBy n).table with slab := [⟨0, ⟨64, .localUploaded, true, (n % 2 ^ 16 + 1) % 2 ^ 16, 1, 7⟩⟩] }
        reads := 0 :: List.replicate n 0 } := rfl
  rw [step, count]
  rfl

theorem readReached (n : Nat) : Reachable (system (appendLayout Nat Nat)) (readBy n) := by
  induction n with
  | zero =>
    have run : AllAllowed (fun w a => True ∧ Allowed w a) (perform (appendLayout Nat Nat)) start (readActions 0) := by
      decide
    exact reachableUnder (reachableAllowed run)
  | succ n ih =>
    have allowed : Allowed (readBy n) (.beginRead 0) := rfl
    exact reachableStep ih ⟨allowed, (readMore n).symm⟩

theorem readEvicted : ¬∀ layout w, Reachable (system layout) w → Sound layout w := by
  intro all
  have sound := all _ _ (readReached 65536)
  have none_ : 65536 % 2 ^ 16 = 0 := by decide
  have evicts : ∃ after, ResidencySlab.evict (readBy 65536).table 0 = some after := by
    unfold readBy
    rw [none_]
    exact ⟨_, rfl⟩
  obtain ⟨after, evicts⟩ := evicts
  have unread := (sound.evicted 0 after evicts).2
  have count : (readBy 65536).reads.count 0 = 65536 := List.count_replicate_self
  rw [count] at unread
  cases unread

end Dewfall.ResidencyRuns
