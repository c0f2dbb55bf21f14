import Dewfall.Converter.TreeHandler
import Mathlib.Data.List.Nodup
import Mathlib.Data.List.Range

/-! Bands over any number of checkpoints, crashes and sessions. A band counts while it is in the bucket
or on its way there: what was emitted before a crash and has not reached the bucket is void, and its trees
are banded anew. Whether the uploads themselves succeed is not treated. -/
namespace Dewfall.BandEmission
open General.Transition StorageMap TreeHandler

-- On their way to the bucket.
def pending (w : World) : List BandJob := w.inFlight.toList ++ w.waiting ++ w.queue

def inForce (w : World) : List BandJob := w.bucket ++ pending w

def members (jobs : List BandJob) : List Nat := jobs.flatMap fun job => job.trees.map Prod.fst

def hasTerminal (jobs : List BandJob) : Prop := ∃ job ∈ jobs, job.terminal = true

instance (jobs) : Decidable (hasTerminal jobs) := by unfold hasTerminal; infer_instance

def Sealed (slots : List Slot) (i : Nat) : Prop := ∃ s ∈ slots[i]?, s.state ≠ .building

instance (slots i) : Decidable (Sealed slots i) := by unfold Sealed; infer_instance

structure Banded (w : World) : Prop where
  consecutive : (inForce w).map BandJob.bandId = List.range (inForce w).length
  once : (members (inForce w)).Nodup
  final : ∀ i ∈ members (inForce w), Sealed w.registry.slots i
  terminalOnce : (inForce w).countP BandJob.terminal ≤ 1
  terminalLast : hasTerminal (inForce w) → ∀ i < w.registry.slots.length, i ∈ members (inForce w)
  -- What a commit finds final is banded right after it, and at the end of all input the terminal band is out.
  emitted : w.bandSink = true → w.registry.mutableDataset = false →
    (∀ i, Sealed w.registry.slots i → i ∈ members (inForce (emitBandJob w))) ∧
      (¬w.registry.lodWatermark < terminal → hasTerminal (inForce (emitBandJob w)))

-- At the end of all input a band is emitted only when no tree is building, and none is created after it;
-- one band at most waits behind the one being committed.
def StepSound (w : World) : Action → Prop
  | .addTree _ _ => ¬hasTerminal (inForce w)
  | .emitBandJob => w.bandSink = true → w.registry.mutableDataset = false →
      ¬w.registry.lodWatermark < terminal → ∀ i < w.registry.slots.length, Sealed w.registry.slots i
  | .commitBand => w.waiting.length ≤ 1
  | _ => True

instance (w a) : Decidable (StepSound w a) := by
  apply TreeHandler.Action.casesOn (motive := fun a => Decidable (StepSound w a)) a
  all_goals
    intros
    dsimp only [StepSound]
    infer_instance

/-! ## Marks of the slots -/

abbrev Mark := TreeState × Option Nat

def mark (s : Slot) : Mark := (s.state, s.band)
def marks (slots : List Slot) : List Mark := slots.map mark

def SealedMark (ms : List Mark) (i : Nat) : Prop := ∃ m ∈ ms[i]?, m.1 ≠ .building

theorem sealedIff {slots : List Slot} {i : Nat} : Sealed slots i ↔ SealedMark (marks slots) i := by
  simp only [Sealed, SealedMark, marks, List.getElem?_map]
  cases slots[i]? with
  | none => simp
  | some s => simp [mark]

theorem marksModify {slots : List Slot} {i} {f : Slot → Slot} (same : ∀ s, mark (f s) = mark s) :
    marks (slots.modify i f) = marks slots := by
  refine List.ext_getElem? fun k => ?_
  simp only [marks, List.getElem?_map, List.getElem?_modify]
  cases slots[k]? with
  | none => rfl
  | some s =>
    simp only [Option.map_eq_map, Option.map_some]
    split
    · rw [same]
    · rfl

theorem serializeFromMarks (failing : List Nat) (first : Nat) (slots : List Slot) :
    marks (serializeFrom failing first slots).1 = marks slots := by
  induction slots generalizing first with
  | nil => rfl
  | cons s rest ih =>
    have later := ih (first + 1)
    unfold serializeFrom
    generalize serializeFrom failing (first + 1) rest = result at later ⊢
    obtain ⟨after, taken, ok⟩ := result
    dsimp only at later
    split
    · split
      · rfl
      · simp only [marks, List.map_cons] at later ⊢
        rw [later]
        rfl
    · simp only [marks, List.map_cons] at later ⊢
      rw [later]

theorem restoreMarks (taken : List Taken) (slots : List Slot) :
    marks (restoreFailedSerialize taken slots) = marks slots := by
  induction taken generalizing slots with
  | nil => rfl
  | cons t rest ih => exact (ih _).trans (marksModify fun _ => rfl)

theorem replaceMarks (pairs : List (Nat × Location)) (slots : List Slot) :
    marks (replaceLocations pairs slots).1 = marks slots := by
  induction pairs generalizing slots with
  | nil => rfl
  | cons pair rest ih => exact (ih _).trans (marksModify fun _ => rfl)

theorem serializedMarks (r : Registry) : marks r.serialized.slots = marks r.slots := by
  simp only [marks, Registry.serialized, List.map_map]
  exact List.map_congr_left fun s _ => rfl

-- Only trees that were building change their state, and no band changes.
structure Marked (before after : List Mark) : Prop where
  length : after.length = before.length
  kept : ∀ (i : Nat) (m : Mark), before[i]? = some m → m.1 ≠ .building → after[i]? = some m
  gained : ∀ (i : Nat) (m : Mark), after[i]? = some m →
    before[i]? = some m ∨ m.1 = .final ∧ before[i]? = some (.building, m.2)

theorem markMark (mutableDataset : Bool) (pass : Nat) (s : Slot) :
    mark (s.mark mutableDataset pass) = mark s ∨
      s.state = .building ∧ mark (s.mark mutableDataset pass) = (.final, s.band) := by
  unfold Slot.mark
  split
  · exact Or.inl rfl
  · split
    · rename_i found
      simp only [Bool.and_eq_true, decide_eq_true_eq] at found
      exact Or.inr ⟨found.1.1.2, rfl⟩
    · exact Or.inl rfl

theorem markFinalMarked (r : Registry) (pass : Option Nat) : Marked (marks r.slots) (marks (markFinal r pass).slots) := by
  cases pass with
  | none => exact ⟨rfl, fun _ _ here _ => here, fun _ _ here => Or.inl here⟩
  | some pass =>
    refine ⟨by simp [marks, markFinal], fun i m here sealed => ?_, fun i m here => ?_⟩
    all_goals simp only [marks, markFinal, List.getElem?_map] at here ⊢
    · obtain ⟨s, there, rfl⟩ := Option.map_eq_some_iff.mp here
      rcases markMark r.mutableDataset pass s with same | ⟨building, -⟩
      · simp [there, same]
      · exact absurd building sealed
    · cases there : r.slots[i]? with
      | none => simp [there] at here
      | some s =>
        simp only [there, Option.map_some, Option.some.injEq] at here
        rcases markMark r.mutableDataset pass s with same | ⟨building, final⟩
        · exact Or.inl (by rw [← here, same]; rfl)
        · refine Or.inr ⟨by rw [← here, final], ?_⟩
          rw [← here, final, Option.map_some, mark, building]

theorem markUploadedMarks (trees : List (Nat × Nat)) (slots : List Slot) :
    (marks (markUploaded trees slots)).length = (marks slots).length ∧
      ∀ i m, (marks (markUploaded trees slots))[i]? = some m →
        (marks slots)[i]? = some m ∧ i ∉ trees.map Prod.fst ∨
          i ∈ trees.map Prod.fst ∧ m.1 = .uploaded := by
  induction trees generalizing slots with
  | nil => exact ⟨rfl, fun i m here => Or.inl ⟨here, List.not_mem_nil⟩⟩
  | cons t rest ih =>
    obtain ⟨long, later⟩ := ih (slots.modify t.1 (Slot.upload t.2))
    refine ⟨long.trans (by simp [marks]), fun i m here => ?_⟩
    rcases later i m here with ⟨there, absent⟩ | ⟨mem, uploaded⟩
    · simp only [marks, List.getElem?_map, List.getElem?_modify] at there ⊢
      by_cases same : t.1 = i
      · refine Or.inr ⟨by simp [same], ?_⟩
        cases slot : slots[i]? with
        | none => simp [slot] at there
        | some s =>
          simp only [slot, same, if_true, Option.map_eq_map, Option.map_some, Option.some.injEq] at there
          rw [← there]
          rfl
      · refine Or.inl ⟨?_, fun mem => ?_⟩
        · cases slot : slots[i]? with
          | none => simp [slot] at there
          | some s => simpa [slot, same] using there
        · rcases List.mem_cons.mp mem with rfl | mem
          · exact same rfl
          · exact absent mem
    · exact Or.inr ⟨List.mem_cons_of_mem _ mem, uploaded⟩

/-! ## The invariant -/

-- The marks of a registry that know of the bands `all`, of which `up` are in the bucket.
structure Kept (ms : List Mark) (all up : List BandJob) : Prop where
  sealed : ∀ i ∈ members all, SealedMark ms i
  uploaded : ∀ (i : Nat) (band : Option Nat), ms[i]? = some (.uploaded, band) → i ∈ members up
  building : ∀ (i : Nat) (band : Option Nat), ms[i]? = some (.building, band) → band = none
  complete : hasTerminal all → ∀ i < ms.length, i ∈ members all

-- What is final in the live registry was final when `ms` was taken from it.
structure Snapshot (ms live : List Mark) (up : List BandJob) : Prop where
  length : ms.length ≤ live.length
  sealed : ∀ i, SealedMark live i → SealedMark ms i
  uploaded : ∀ (i : Nat) (band : Option Nat), ms[i]? = some (.uploaded, band) → i ∈ members up
  building : ∀ (i : Nat) (band : Option Nat), ms[i]? = some (.building, band) → band = none

def live (w : World) : List Mark := marks w.registry.slots

-- A tree that is not uploaded has a band exactly when one in force lists it.
def Flagged (ms : List Mark) (all : List BandJob) : Prop :=
  ∀ (i : Nat) (m : Mark), ms[i]? = some m → m.1 ≠ .uploaded → (m.2 = none ↔ i ∉ members all)

structure Sink (w : World) : Prop where
  flagged : Flagged (live w) (inForce w)
  next : w.nextBandId = (inForce w).length
  terminal : w.terminalBandEmitted = true ↔ hasTerminal (inForce w)

def ChainSound (w : World) : Prop :=
  match w.chain with
  | .writingRegistry _ snapshot | .writingIndex _ snapshot _ _ => Snapshot (marks snapshot.slots) (live w) w.bucket
  | .committed => ∃ r readable, w.index = some (r, readable) ∧ Snapshot (marks r.slots) (live w) w.bucket
  | .idle | .writingTrees _ => True

structure Invariant (w : World) : Prop where
  consecutive : (inForce w).map BandJob.bandId = List.range (inForce w).length
  once : (members (inForce w)).Nodup
  last : ∀ job ∈ (inForce w).dropLast, job.terminal = false
  kept : Kept (live w) (inForce w) w.bucket
  index : ∀ r readable, w.index = some (r, readable) → Kept (marks r.slots) (inForce w) w.bucket
  origin : w.index = none → inForce w = []
  taken : ChainSound w
  sink : w.bandSink = true → Sink w
  noSink : w.bandSink = false → pending w = []
  named : w.objects = w.bucket.reverse
  posted : ∀ job ∈ w.posted, job ∈ w.bucket

theorem membersAppend (jobs more : List BandJob) : members (jobs ++ more) = members jobs ++ members more :=
  List.flatMap_append

theorem membersMore {jobs more : List BandJob} {i} (mem : i ∈ members jobs) : i ∈ members (jobs ++ more) := by
  rw [membersAppend]
  exact List.mem_append_left _ mem

theorem keptMore {ms all up} (kept : Kept ms all up) {more} : Kept ms all (up ++ more) :=
  ⟨kept.sealed, fun i band here => membersMore (kept.uploaded i band here), kept.building, kept.complete⟩

theorem snapshotMore {ms ls up} (snapshot : Snapshot ms ls up) {more} : Snapshot ms ls (up ++ more) :=
  ⟨snapshot.length, snapshot.sealed, fun i band here => membersMore (snapshot.uploaded i band here),
    snapshot.building⟩

theorem snapshotSelf {ms all up} (kept : Kept ms all up) : Snapshot ms ms up :=
  ⟨Nat.le_refl _, fun _ sealed => sealed, kept.uploaded, kept.building⟩

theorem snapshotKept {ms ls all up} (snapshot : Snapshot ms ls up) (kept : Kept ls all up) : Kept ms all up :=
  ⟨fun i mem => snapshot.sealed i (kept.sealed i mem), snapshot.uploaded, snapshot.building,
    fun past i short => kept.complete past i (Nat.lt_of_lt_of_le short snapshot.length)⟩

-- A step that changes neither the marks nor the bands.
theorem quietInvariant {w after : World} (inv : Invariant w) (same : live after = live w)
    (index : after.index = w.index) (chain : ChainSound w → ChainSound after) (bandSink : after.bandSink = w.bandSink)
    (next : after.nextBandId = w.nextBandId) (past : after.terminalBandEmitted = w.terminalBandEmitted)
    (bucket : after.bucket = w.bucket) (objects : after.objects = w.objects) (way : pending after = pending w)
    (posted : after.posted = w.posted) : Invariant after := by
  have force : inForce after = inForce w := by rw [inForce, bucket, way, inForce]
  refine ⟨?_, ?_, ?_, ?_, fun r readable here => ?_, fun none_ => ?_, chain inv.taken, fun on => ?_, fun off => ?_, ?_, ?_⟩
  · rw [force]
    exact inv.consecutive
  · rw [force]
    exact inv.once
  · rw [force]
    exact inv.last
  · rw [force, same, bucket]
    exact inv.kept
  · rw [force, bucket]
    exact inv.index r readable (index ▸ here)
  · rw [force]
    exact inv.origin (index ▸ none_)
  · obtain ⟨flagged, next', past'⟩ := inv.sink (bandSink ▸ on)
    refine ⟨?_, ?_, ?_⟩
    · rw [force, same]
      exact flagged
    · rw [force, next]
      exact next'
    · rw [force, past]
      exact past'
  · rw [way]
    exact inv.noSink (bandSink ▸ off)
  · rw [objects, bucket]
    exact inv.named
  · rw [posted, bucket]
    exact inv.posted

-- The chain's snapshot still stands where the marks it looks at are the same.
theorem takenSame {w after : World} (same : live after = live w) (index : after.index = w.index)
    (bucket : after.bucket = w.bucket) (chain : after.chain = w.chain) (taken : ChainSound w) : ChainSound after := by
  unfold ChainSound at taken ⊢
  rw [chain, same, bucket, index]
  exact taken

/-! ## Steps other than an emission -/

theorem sealedAppend {ms : List Mark} {i} (sealed : SealedMark ms i) (more : List Mark) : SealedMark (ms ++ more) i := by
  obtain ⟨m, here, open_⟩ := sealed
  refine ⟨m, ?_, open_⟩
  rw [Option.mem_def, List.getElem?_append_left (List.getElem?_eq_some_iff.mp here).1]
  exact here

theorem appendedMark {ms : List Mark} {m new : Mark} {i : Nat} (here : (ms ++ [new])[i]? = some m) :
    ms[i]? = some m ∨ i = ms.length ∧ m = new := by
  rcases Nat.lt_or_ge i ms.length with short | long
  · rw [List.getElem?_append_left short] at here
    exact Or.inl here
  · rw [List.getElem?_append_right long] at here
    have first : i - ms.length = 0 := by
      obtain ⟨bound, -⟩ := List.getElem?_eq_some_iff.mp here
      simp only [List.length_singleton] at bound
      omega
    rw [first] at here
    cases here
    exact Or.inr ⟨by omega, rfl⟩

theorem addTreeInvariant {w : World} (inv : Invariant w) (open_ : ¬hasTerminal (inForce w)) (mortonMax : Nat)
    (storageMap : InputStorageMap) : Invariant (addTree w mortonMax storageMap) := by
  have same : live (addTree w mortonMax storageMap) = live w ++ [(.building, none)] := by
    simp [live, marks, addTree, mark]
  have force : inForce (addTree w mortonMax storageMap) = inForce w := rfl
  have unsealed {i} (sealed : SealedMark (live w ++ [(.building, none)]) i) : SealedMark (live w) i := by
    obtain ⟨m, here, closed⟩ := sealed
    rcases appendedMark here with old | ⟨-, rfl⟩
    · exact ⟨m, old, closed⟩
    · exact absurd rfl closed
  have known := inv.kept
  have grow {ms : List Mark} (snapshot : Snapshot ms (live w) w.bucket) :
      Snapshot ms (live w ++ [(.building, none)]) w.bucket := by
    refine ⟨?_, fun i sealed => snapshot.sealed i (unsealed sealed), snapshot.uploaded, snapshot.building⟩
    rw [List.length_append]
    exact Nat.le_add_right_of_le snapshot.length
  refine ⟨inv.consecutive, inv.once, inv.last, ?_, inv.index, inv.origin, ?_, fun on => ?_, inv.noSink, inv.named, inv.posted⟩
  · rw [same, force]
    refine ⟨fun i mem => sealedAppend (known.sealed i mem) _, fun i band here => ?_, fun i band here => ?_,
      fun past => absurd past open_⟩
    · rcases appendedMark here with old | ⟨-, new⟩
      · exact known.uploaded i band old
      · cases new
    · rcases appendedMark here with old | ⟨-, new⟩
      · exact known.building i band old
      · cases new
        rfl
  · have taken := inv.taken
    unfold ChainSound at taken ⊢
    rw [same]
    split
    all_goals
      rename_i chain
      rw [show w.chain = _ from chain] at taken
    · exact grow taken
    · exact grow taken
    · obtain ⟨r, readable, index, snapshot⟩ := taken
      exact ⟨r, readable, index, grow snapshot⟩
    · trivial
    · trivial
  · obtain ⟨flagged, next, past⟩ := inv.sink on
    refine ⟨?_, next, past⟩
    rw [same, force]
    intro i m here closed
    rcases appendedMark here with old | ⟨rfl, rfl⟩
    · exact flagged i m old closed
    · refine ⟨fun _ mem => ?_, fun _ => rfl⟩
      obtain ⟨m, there, -⟩ := known.sealed _ mem
      have bound := (List.getElem?_eq_some_iff.mp there).1
      omega

theorem serializeTreesLive (w : World) (failing : List Nat) :
    live (serializeTrees w failing) = marks (markFinal w.registry w.passWatermark).slots := by
  have taken := serializeFromMarks failing 0 (markFinal w.registry w.passWatermark).slots
  unfold live serializeTrees
  dsimp only
  generalize serializeFrom failing 0 (markFinal w.registry w.passWatermark).slots = result at taken ⊢
  obtain ⟨slots, left, ok⟩ := result
  dsimp only at taken ⊢
  split
  · exact taken
  · rw [restoreMarks, taken]

theorem serializeTreesChain (w : World) (failing : List Nat) :
    (∃ taken, (serializeTrees w failing).chain = .writingTrees taken) ∨ (serializeTrees w failing).chain = .idle := by
  unfold serializeTrees
  dsimp only
  generalize serializeFrom failing 0 (markFinal w.registry w.passWatermark).slots = result
  obtain ⟨slots, taken, ok⟩ := result
  cases ok
  · exact Or.inr rfl
  · exact Or.inl ⟨taken, rfl⟩

theorem keptMarked {ms after all up} (kept : Kept ms all up) (marked : Marked ms after) : Kept after all up := by
  refine ⟨fun i mem => ?_, fun i band here => ?_, fun i band here => ?_, fun past i short => ?_⟩
  · obtain ⟨m, here, closed⟩ := kept.sealed i mem
    exact ⟨m, marked.kept i m here closed, closed⟩
  · rcases marked.gained i _ here with old | ⟨new, -⟩
    · exact kept.uploaded i band old
    · cases new
  · rcases marked.gained i _ here with old | ⟨new, -⟩
    · exact kept.building i band old
    · cases new
  · exact kept.complete past i (marked.length ▸ short)

theorem serializeTreesInvariant {w : World} (inv : Invariant w) (failing : List Nat) :
    Invariant (serializeTrees w failing) := by
  have marked : Marked (live w) (live (serializeTrees w failing)) := by
    rw [serializeTreesLive]
    exact markFinalMarked w.registry w.passWatermark
  have chain : ChainSound (serializeTrees w failing) := by
    unfold ChainSound
    rcases serializeTreesChain w failing with ⟨taken, chain⟩ | chain
    all_goals
      rw [chain]
      trivial
  refine ⟨inv.consecutive, inv.once, inv.last, keptMarked inv.kept marked, inv.index, inv.origin, chain,
    fun on => ?_, inv.noSink, inv.named, inv.posted⟩
  obtain ⟨flagged, next, past⟩ := inv.sink on
  refine ⟨fun i m here closed => ?_, next, past⟩
  rcases marked.gained i m here with old | ⟨-, old⟩
  · exact flagged i m old closed
  · exact flagged i (.building, m.2) old (by simp)

theorem treesWrittenInvariant {w : World} (inv : Invariant w) (taken : List Taken)
    (locations : List Location) (ok : Bool) : Invariant (treesWritten w taken locations ok) := by
  have same : live (treesWritten w taken locations ok) = live w := by
    unfold live treesWritten
    cases ok
    · exact restoreMarks taken w.registry.slots
    · exact replaceMarks _ w.registry.slots
  have bucket : (treesWritten w taken locations ok).bucket = w.bucket := by cases ok <;> rfl
  refine quietInvariant inv same (by cases ok <;> rfl) (fun _ => ?_) (by cases ok <;> rfl)
    (by cases ok <;> rfl) (by cases ok <;> rfl) bucket (by cases ok <;> rfl) (by cases ok <;> rfl) (by cases ok <;> rfl)
  unfold ChainSound
  rw [same, bucket]
  cases ok
  · trivial
  · have snapshot := snapshotSelf inv.kept
    rw [← same] at snapshot ⊢
    simp only [treesWritten, if_true]
    rw [serializedMarks]
    exact snapshot

theorem indexWrittenInvariant {w : World} (inv : Invariant w) {old snapshot location readable}
    (chain : w.chain = .writingIndex old snapshot location readable) (metadata : List Location) (ok : Bool) :
    Invariant (indexWritten w old snapshot location readable metadata ok) := by
  have taken := inv.taken
  unfold ChainSound at taken
  rw [chain] at taken
  cases ok with
  | false => exact ⟨inv.consecutive, inv.once, inv.last, inv.kept, inv.index, inv.origin, trivial,
      fun on => ⟨(inv.sink on).flagged, (inv.sink on).next, (inv.sink on).terminal⟩, inv.noSink, inv.named, inv.posted⟩
  | true =>
    refine ⟨inv.consecutive, inv.once, inv.last, inv.kept, ?_, fun none_ => (nomatch none_),
      ⟨snapshot, readable, rfl, taken⟩,
      fun on => ⟨(inv.sink on).flagged, (inv.sink on).next, (inv.sink on).terminal⟩, inv.noSink, inv.named, inv.posted⟩
    rintro r readable' ⟨⟩
    exact snapshotKept taken inv.kept

theorem consecutivePart {jobs more : List BandJob}
    (all : (jobs ++ more).map BandJob.bandId = List.range (jobs ++ more).length) :
    jobs.map BandJob.bandId = List.range jobs.length := by
  have first := congrArg (List.take jobs.length) all
  rw [List.map_append, List.take_left' (by simp), List.take_range, List.length_append] at first
  rw [first]
  congr 1
  omega

theorem handleBandPending (w : World) (job : BandJob) :
    pending (handleBand w job) = w.inFlight.toList ++ w.waiting ++ [job] ++ w.queue := by
  unfold handleBand
  cases flight : w.inFlight with
  | some other => simp [pending]
  | none =>
    cases queued : w.waiting ++ [job] with
    | nil => exact absurd queued (by simp)
    | cons next rest =>
      dsimp only
      rw [pending, Option.toList_none, List.nil_append, queued]
      rfl

theorem handleBandSame (w : World) (job : BandJob) :
    ∃ inFlight waiting, handleBand w job = { w with inFlight := inFlight, waiting := waiting } := by
  unfold handleBand
  split
  · exact ⟨_, _, rfl⟩
  · exact ⟨w.inFlight, _, rfl⟩

-- A step of the uploader that leaves the order of the bands.
theorem handedInvariant {w : World} (inv : Invariant w) {inFlight waiting queue}
    (way : pending { w with inFlight := inFlight, waiting := waiting, queue := queue } = pending w) :
    Invariant { w with inFlight := inFlight, waiting := waiting, queue := queue } :=
  quietInvariant inv rfl rfl (takenSame rfl rfl rfl rfl) rfl rfl rfl rfl rfl way rfl

theorem deliverBandInvariant {w : World} (inv : Invariant w) {job rest} (queue : w.queue = job :: rest) :
    Invariant (handleBand { w with queue := rest } job) := by
  have way := handleBandPending { w with queue := rest } job
  obtain ⟨inFlight, waiting, same⟩ := handleBandSame { w with queue := rest } job
  rw [same] at way ⊢
  refine handedInvariant inv (way.trans ?_)
  rw [pending, queue]
  simp

theorem handleFollowingInvariant {w : World} (inv : Invariant w) (idle : w.inFlight = none)
    (order : w.waiting.length ≤ 1) : Invariant (handleFollowing w) := by
  unfold handleFollowing
  split
  · exact inv
  · rename_i following rest waits
    obtain rfl : rest = [] := List.eq_nil_of_length_eq_zero (by rw [waits, List.length_cons] at order; omega)
    have way := handleBandPending { w with waiting := [] } following
    obtain ⟨inFlight, waiting, same⟩ := handleBandSame { w with waiting := [] } following
    rw [same] at way ⊢
    refine @handedInvariant w inv inFlight waiting w.queue (way.trans ?_)
    rw [pending, waits, idle]
    rfl

theorem bandsNamedAll {jobs : List BandJob} (consecutive : jobs.map BandJob.bandId = List.range jobs.length) :
    bandsNamed jobs.reverse jobs.length = jobs := by
  induction jobs using List.reverseRecOn with
  | nil => rfl
  | append_singleton before job ih =>
    rw [List.map_append, List.map_singleton, List.length_append, List.length_singleton, List.range_succ] at consecutive
    obtain ⟨front, last⟩ := List.append_inj' consecutive rfl
    have own : job.bandId = before.length := List.cons.inj last |>.1
    unfold bandsNamed at ih ⊢
    rw [List.length_append, List.length_singleton, List.range_succ, List.filterMap_append, List.reverse_append,
      List.reverse_singleton, List.singleton_append]
    congr 1
    · refine Eq.trans (List.filterMap_congr fun id mem => ?_) (ih front)
      rw [List.find?_cons_of_neg]
      rw [own, decide_eq_true_eq]
      exact (List.mem_range.mp mem).ne'
    · rw [List.filterMap_cons, List.find?_cons_of_pos (by rw [own, decide_eq_true_eq])]
      rfl

theorem committed {w : World} (inv : Invariant w) {job} (flight : w.inFlight = some job) :
    commitBand { w with inFlight := none } job = { w with
      objects := (w.bucket ++ [job]).reverse
      bucket := w.bucket ++ [job]
      inFlight := none
      posted := w.posted ++ [job] } := by
  have consecutive : (w.bucket ++ [job]).map BandJob.bandId = List.range (w.bucket ++ [job]).length := by
    have all := inv.consecutive
    rw [inForce, pending, flight, Option.toList_some, List.append_assoc [job], ← List.append_assoc] at all
    exact consecutivePart all
  have own : job.bandId = w.bucket.length := by
    have last := congrArg (fun ids => ids[w.bucket.length]?) consecutive
    simpa using last
  have others : w.objects.filter (fun other => other.bandId ≠ job.bandId) = w.objects := by
    refine List.filter_eq_self.mpr fun other mem => ?_
    rw [inv.named, List.mem_reverse] at mem
    have id := List.mem_map_of_mem (f := BandJob.bandId) mem
    rw [List.map_append, List.length_append, List.length_singleton, List.range_succ] at consecutive
    rw [(List.append_inj' consecutive rfl).1, List.mem_range, ← own] at id
    exact decide_eq_true id.ne
  have named := bandsNamedAll consecutive
  rw [List.reverse_append, List.reverse_singleton, List.singleton_append, ← inv.named, List.length_append,
    List.length_singleton, ← own] at named
  unfold commitBand
  dsimp only
  rw [others, named, inv.named, List.reverse_append, List.reverse_singleton, List.singleton_append]

theorem commitBandInvariant {w : World} (inv : Invariant w) {job} (flight : w.inFlight = some job) :
    Invariant (commitBand { w with inFlight := none } job) := by
  have force : inForce (commitBand { w with inFlight := none } job) = inForce w := by
    rw [committed inv flight, inForce, inForce, pending, pending, flight]
    simp
  rw [committed inv flight] at force ⊢
  refine ⟨?_, ?_, ?_, ?_, fun r readable here => ?_, fun none_ => ?_, ?_, fun on => ?_, fun off => ?_, rfl, ?_⟩
  · rw [force]
    exact inv.consecutive
  · rw [force]
    exact inv.once
  · rw [force]
    exact inv.last
  · rw [force]
    exact keptMore inv.kept
  · rw [force]
    exact keptMore (inv.index r readable here)
  · rw [force]
    exact inv.origin none_
  · have taken := inv.taken
    unfold ChainSound at taken ⊢
    dsimp only
    split
    all_goals
      rename_i chain
      rw [chain] at taken
    · exact snapshotMore taken
    · exact snapshotMore taken
    · obtain ⟨r, readable, index, snapshot⟩ := taken
      exact ⟨r, readable, index, snapshotMore snapshot⟩
    · trivial
    · trivial
  · obtain ⟨flagged, next, past⟩ := inv.sink on
    rw [← force] at flagged next past
    exact ⟨flagged, next, past⟩
  · have none_ := inv.noSink off
    rw [pending, flight] at none_
    cases none_
  · intro other mem
    rcases List.mem_append.mp mem with old | new
    · exact List.mem_append_left _ (inv.posted other old)
    · exact List.mem_append_right _ new

-- The marks after the trees `ids` have been marked as uploaded.
structure Uploaded (ids : List Nat) (before after : List Mark) : Prop where
  length : after.length = before.length
  old : ∀ (i : Nat) (m : Mark), after[i]? = some m →
    before[i]? = some m ∧ i ∉ ids ∨ i ∈ ids ∧ m.1 = .uploaded

theorem uploadedSealed {ids before after} (uploaded : Uploaded ids before after) {i} (sealed : SealedMark before i) :
    SealedMark after i := by
  obtain ⟨m, here, closed⟩ := sealed
  have short := (List.getElem?_eq_some_iff.mp here).1
  rw [← uploaded.length] at short
  refine ⟨after[i], List.getElem?_eq_getElem short, ?_⟩
  rcases uploaded.old i _ (List.getElem?_eq_getElem short) with ⟨same, -⟩ | ⟨-, new⟩
  · cases here.symm.trans same
    exact closed
  · rw [new]
    decide

theorem keptUploaded {ids before after all up} (uploaded : Uploaded ids before after) (kept : Kept before all up)
    (known : ∀ i ∈ ids, i ∈ members up) : Kept after all up := by
  refine ⟨fun i mem => uploadedSealed uploaded (kept.sealed i mem), fun i band here => ?_, fun i band here => ?_,
    fun past i short => kept.complete past i (uploaded.length ▸ short)⟩
  · rcases uploaded.old i _ here with ⟨same, -⟩ | ⟨mem, -⟩
    · exact kept.uploaded i band same
    · exact known i mem
  · rcases uploaded.old i _ here with ⟨same, -⟩ | ⟨-, new⟩
    · exact kept.building i band same
    · cases new

theorem snapshotUploaded {ids before after ms up} (uploaded : Uploaded ids before after) (snapshot : Snapshot ms before up)
    (known : ∀ i ∈ ids, SealedMark before i) : Snapshot ms after up := by
  refine ⟨by rw [uploaded.length]; exact snapshot.length, fun i sealed => ?_, snapshot.uploaded, snapshot.building⟩
  obtain ⟨m, here, closed⟩ := sealed
  rcases uploaded.old i m here with ⟨same, -⟩ | ⟨mem, -⟩
  · exact snapshot.sealed i ⟨m, same, closed⟩
  · exact snapshot.sealed i (known i mem)

theorem uploadedIds (jobs : List BandJob) : (jobs.flatMap BandJob.members).map Prod.fst = members jobs := by
  simp only [members, List.map_flatMap, BandJob.members, List.map_map]
  rfl

theorem memberOf {job : BandJob} {jobs} (mem : job ∈ jobs) {i} (tree : i ∈ job.members.map Prod.fst) :
    i ∈ members jobs := by
  refine List.mem_flatMap.mpr ⟨job, mem, ?_⟩
  simpa [BandJob.members, List.map_map] using tree

theorem markUploadedUploaded (trees : List (Nat × Nat)) (slots : List Slot) :
    Uploaded (trees.map Prod.fst) (marks slots) (marks (markUploaded trees slots)) :=
  ⟨(markUploadedMarks trees slots).1, (markUploadedMarks trees slots).2⟩

theorem markBandUploadedInvariant {w : World} (inv : Invariant w) {job rest} (posted : w.posted = job :: rest) :
    Invariant { w with
      posted := rest, registry := { w.registry with slots := markUploaded job.members w.registry.slots } } := by
  have mem : job ∈ w.bucket := inv.posted job (by rw [posted]; exact List.mem_cons_self)
  have uploaded := markUploadedUploaded job.members w.registry.slots
  have known (i) (here : i ∈ job.members.map Prod.fst) : i ∈ members w.bucket := memberOf mem here
  have sealed (i) (here : i ∈ job.members.map Prod.fst) : SealedMark (live w) i :=
    inv.kept.sealed i (membersMore (known i here))
  refine ⟨inv.consecutive, inv.once, inv.last, keptUploaded uploaded inv.kept known, inv.index, inv.origin, ?_,
    fun on => ?_, inv.noSink, inv.named,
    fun other here => inv.posted other (by rw [posted]; exact List.mem_cons_of_mem _ here)⟩
  · have taken := inv.taken
    unfold ChainSound at taken ⊢
    dsimp only
    split
    all_goals
      rename_i chain
      rw [chain] at taken
    · exact snapshotUploaded uploaded taken sealed
    · exact snapshotUploaded uploaded taken sealed
    · obtain ⟨r, readable, index, snapshot⟩ := taken
      exact ⟨r, readable, index, snapshotUploaded uploaded snapshot sealed⟩
    · trivial
    · trivial
  · obtain ⟨flagged, next, past⟩ := inv.sink on
    refine ⟨fun i m here closed => ?_, next, past⟩
    rcases uploaded.old i m here with ⟨same, -⟩ | ⟨-, new⟩
    · exact flagged i m same closed
    · exact absurd new closed

/-! ## A new session -/

theorem lastTerminal {jobs : List BandJob} (last : ∀ job ∈ jobs.dropLast, job.terminal = false) :
    isComplete jobs = true ↔ hasTerminal jobs := by
  rcases List.eq_nil_or_concat jobs with rfl | ⟨before, job, rfl⟩
  · simp [isComplete, hasTerminal]
  · rw [List.concat_eq_append] at last ⊢
    rw [List.dropLast_concat] at last
    simp only [isComplete, List.getLast?_append, List.getLast?_singleton, Option.some_or, Option.map_some,
      Option.getD_some, hasTerminal]
    constructor
    · intro past
      exact ⟨job, List.mem_append_right _ List.mem_cons_self, past⟩
    · rintro ⟨other, mem, past⟩
      rcases List.mem_append.mp mem with old | new
      · rw [last other old] at past
        cases past
      · rw [← List.mem_singleton.mp new]
        exact past

theorem dropLastMore {jobs more : List BandJob} {job} (mem : job ∈ jobs) (some_ : more ≠ []) :
    job ∈ (jobs ++ more).dropLast := by
  rw [List.dropLast_append_of_ne_nil some_]
  exact List.mem_append_left _ mem

theorem lastPart {jobs more : List BandJob} (last : ∀ job ∈ (jobs ++ more).dropLast, job.terminal = false) :
    ∀ job ∈ jobs.dropLast, job.terminal = false := by
  intro job mem
  cases more with
  | nil => exact last job (by rwa [List.append_nil])
  | cons first rest => exact last job (dropLastMore (List.dropLast_subset _ mem) (List.cons_ne_nil _ _))

-- A registry that knows of all bands in force knows of those in the bucket: a terminal band is the last.
theorem keptBucket {w : World} (inv : Invariant w) {ms} (kept : Kept ms (inForce w) w.bucket) :
    Kept ms w.bucket w.bucket := by
  refine ⟨fun i mem => kept.sealed i (membersMore mem), kept.uploaded, kept.building, fun past i short => ?_⟩
  obtain ⟨job, mem, terminal⟩ := past
  have whole := kept.complete ⟨job, List.mem_append_left _ mem, terminal⟩ i short
  cases way : pending w with
  | nil => rwa [inForce, way, List.append_nil] at whole
  | cons first rest =>
    have open_ := inv.last job (dropLastMore mem (by rw [way]; exact List.cons_ne_nil _ _))
    rw [open_] at terminal
    cases terminal

theorem clearMark (s : Slot) : mark s.clearProvisional = if s.state = .final then (s.state, none) else mark s := by
  unfold Slot.clearProvisional
  split <;> rfl

theorem restoredMarks {bucket : List BandJob} {slots : List Slot} (kept : Kept (marks slots) bucket bucket) :
    Kept (marks (restoreUploadedTrees bucket slots)) bucket bucket ∧
      Flagged (marks (restoreUploadedTrees bucket slots)) bucket := by
  have uploaded := markUploadedUploaded (bucket.flatMap BandJob.members) slots
  rw [uploadedIds] at uploaded
  have before := keptUploaded uploaded kept fun i mem => mem
  have cleared (i : Nat) (m : Mark) (here : (marks (restoreUploadedTrees bucket slots))[i]? = some m) :
      ∃ s, (markUploaded (bucket.flatMap BandJob.members) slots)[i]? = some s ∧
        m = if s.state = .final then (s.state, none) else mark s := by
    simp only [marks, restoreUploadedTrees, List.getElem?_map, Option.map_map] at here
    obtain ⟨s, there, rfl⟩ := Option.map_eq_some_iff.mp here
    exact ⟨s, there, clearMark s⟩
  have marked {i : Nat} {s} (there : (markUploaded (bucket.flatMap BandJob.members) slots)[i]? = some s) :
      (marks (markUploaded (bucket.flatMap BandJob.members) slots))[i]? = some (mark s) := by
    rw [marks, List.getElem?_map, there]
    rfl
  refine ⟨⟨fun i mem => ?_, fun i band here => ?_, fun i band here => ?_, fun past i short => ?_⟩,
    fun i m here closed => ?_⟩
  · obtain ⟨m, here, closed⟩ := before.sealed i mem
    simp only [marks, List.getElem?_map, Option.mem_def, Option.map_eq_some_iff] at here
    obtain ⟨s, there, rfl⟩ := here
    refine ⟨mark s.clearProvisional, ?_, ?_⟩
    · simp [marks, restoreUploadedTrees, List.getElem?_map, there]
    · rw [clearMark]
      split
      · exact closed
      · exact closed
  · obtain ⟨s, there, same⟩ := cleared i _ here
    split at same
    · rename_i final
      rw [final] at same
      cases same
    · refine before.uploaded i band ?_
      rw [marked there, same]
  · obtain ⟨s, there, same⟩ := cleared i _ here
    split at same
    · exact (Prod.mk.inj same).2
    · refine before.building i band ?_
      rw [marked there, same]
  · refine before.complete past i ?_
    simpa [marks, restoreUploadedTrees] using short
  · obtain ⟨s, there, same⟩ := cleared i _ here
    have absent : s.state ≠ .uploaded → i ∉ members bucket := by
      intro open_
      rcases uploaded.old i _ (marked there) with ⟨-, absent⟩ | ⟨-, new⟩
      · exact absent
      · exact absurd new open_
    split at same
    · rename_i final
      refine ⟨fun _ => absent (by rw [final]; decide), fun _ => by rw [same]⟩
    · rename_i notFinal
      rw [same] at closed ⊢
      refine ⟨fun _ => absent closed, fun _ => ?_⟩
      have state : s.state = .building := by
        cases state : s.state with
        | building => rfl
        | final => exact absurd state notFinal
        | uploaded => exact absurd state closed
      refine before.building i _ ?_
      rw [marked there, mark, state]

theorem startInvariant (sink : Bool) : Invariant (start sink) := by
  refine ⟨rfl, .nil, fun _ mem => absurd mem List.not_mem_nil, ⟨fun _ mem => absurd mem List.not_mem_nil,
    fun i _ none_ => ?_, fun i _ none_ => ?_, fun _ i short => absurd short (Nat.not_lt_zero i)⟩,
    fun _ _ none_ => (nomatch none_), fun _ => rfl, trivial, fun _ => ⟨fun i _ none_ => ?_, rfl, ?_⟩, fun _ => rfl, rfl,
    fun _ mem => absurd mem List.not_mem_nil⟩
  all_goals try simp [live, marks, start] at none_
  exact ⟨fun no => (nomatch no), fun ⟨_, mem, _⟩ => absurd mem List.not_mem_nil⟩

theorem openCacheInvariant {w : World} (inv : Invariant w) (sink : Bool) : Invariant (openCache w sink) := by
  have consecutive := consecutivePart inv.consecutive
  have once : (members w.bucket).Nodup := by
    have whole := inv.once
    rw [inForce, membersAppend] at whole
    exact (List.nodup_append.mp whole).1
  have last := lastPart inv.last
  have force : w.bucket ++ ([] ++ [] ++ []) = w.bucket := List.append_nil _
  cases here : w.index with
  | none =>
    have empty : w.bucket = [] := (List.append_eq_nil_iff.mp (inv.origin here)).1
    have same : openCache w sink = start sink := by
      have objects : w.objects = [] := by
        rw [inv.named, empty]
        rfl
      unfold openCache openRegistry
      rw [here, empty, objects]
      cases sink <;> rfl
    rw [same]
    exact startInvariant sink
  | some index =>
    obtain ⟨r, readable⟩ := index
    have kept := keptBucket inv (inv.index r readable here)
    obtain ⟨restored, flagged⟩ := restoredMarks kept
    unfold openCache openRegistry
    rw [here]
    have none_ (jobs : List BandJob) : some (r, readable) = none → jobs = [] := fun none_ => (nomatch none_)
    cases sink
    · refine ⟨?_, ?_, ?_, ?_, ?_, none_ _, trivial, fun on => (nomatch on), fun _ => rfl, inv.named,
        fun _ mem => absurd mem List.not_mem_nil⟩
      all_goals simp only [Bool.false_eq_true, if_false, inForce, pending, Option.toList_none, start, force]
      · exact consecutive
      · exact once
      · exact last
      · exact kept
      · rintro r' readable' ⟨⟩
        exact kept
    · refine ⟨?_, ?_, ?_, ?_, ?_, none_ _, trivial, fun _ => ⟨?_, ?_, ?_⟩, fun off => (nomatch off), inv.named,
        fun _ mem => absurd mem List.not_mem_nil⟩
      all_goals simp only [if_true, installSink, inForce, pending, Option.toList_none, start, force]
      · exact consecutive
      · exact once
      · exact last
      · exact restored
      · rintro r' readable' ⟨⟩
        exact kept
      · exact flagged
      · exact lastTerminal last

/-! ## An emission -/

theorem bandTreesIds {slots : List Slot} {i : Nat} :
    i ∈ (bandTrees slots).map Prod.fst ↔ ∃ s ∈ slots[i]?, s.unbanded = true := by
  simp only [bandTrees, List.mem_map, List.mem_filterMap]
  constructor
  · rintro ⟨tree, ⟨⟨s, k⟩, mem, listed⟩, rfl⟩
    dsimp only at listed
    split at listed
    · rename_i unbanded
      cases listed
      exact ⟨s, List.mk_mem_zipIdx_iff_getElem?.mp mem, unbanded⟩
    · cases listed
  · rintro ⟨s, here, unbanded⟩
    exact ⟨(i, s.location), ⟨(s, i), List.mk_mem_zipIdx_iff_getElem?.mpr here, by simp [unbanded]⟩, rfl⟩

theorem bandTreesNodup (slots : List Slot) : ((bandTrees slots).map Prod.fst).Nodup := by
  have part (l : List (Slot × Nat)) : ((l.filterMap fun s =>
      if s.1.unbanded then some (s.2, s.1.location) else none).map Prod.fst).Sublist (l.map Prod.snd) := by
    induction l with
    | nil => exact .slnil
    | cons s rest ih =>
      rw [List.filterMap_cons]
      split
      · exact ih.cons _
      · rename_i listed
        split at listed
        · cases listed
          exact ih.cons_cons _
        · cases listed
  refine (part slots.zipIdx).nodup ?_
  rw [List.zipIdx_map_snd]
  exact List.nodup_range'

theorem provisionalMark (band : Nat) (s : Slot) :
    mark (s.provisional band) = if s.unbanded then (s.state, some band) else mark s := by
  unfold Slot.provisional
  split <;> rfl

theorem unbandedIff {s : Slot} : s.unbanded = true ↔ s.state = .final ∧ s.band = none := by
  simp [Slot.unbanded]

theorem liveSlot {w : World} {i : Nat} {m : Mark} : (live w)[i]? = some m ↔
    ∃ s, w.registry.slots[i]? = some s ∧ mark s = m := by
  simp [live, marks, Option.map_eq_some_iff]

theorem jobMembers (w : World) (jobs : List BandJob) :
    members (jobs ++ [bandJob w]) = members jobs ++ (bandTrees w.registry.slots).map Prod.fst := by
  rw [membersAppend]
  simp [members, bandJob]

-- A tree that is final and in no band in force is one the next job lists.
theorem sealedListed {w : World} (inv : Invariant w) (sink : Sink w) {i} (sealed : SealedMark (live w) i) :
    i ∈ members (inForce w) ∨ i ∈ (bandTrees w.registry.slots).map Prod.fst := by
  obtain ⟨m, here, closed⟩ := sealed
  obtain ⟨s, there, rfl⟩ := liveSlot.mp here
  cases state : s.state with
  | building => exact absurd state closed
  | uploaded =>
    have up := inv.kept.uploaded i s.band (here.trans (by rw [mark, state]))
    exact Or.inl (membersMore up)
  | final =>
    by_cases listed : i ∈ members (inForce w)
    · exact Or.inl listed
    · have band := (sink.flagged i _ here (by simp [mark, state])).mpr listed
      exact Or.inr (bandTreesIds.mpr ⟨s, there, unbandedIff.mpr ⟨state, band⟩⟩)

theorem listedFresh {w : World} (sink : Sink w) {i} (listed : i ∈ (bandTrees w.registry.slots).map Prod.fst) :
    i ∉ members (inForce w) ∧ SealedMark (live w) i := by
  obtain ⟨s, there, unbanded⟩ := bandTreesIds.mp listed
  obtain ⟨state, band⟩ := unbandedIff.mp unbanded
  have here : (live w)[i]? = some (mark s) := liveSlot.mpr ⟨s, there, rfl⟩
  exact ⟨(sink.flagged i _ here (by simp [mark, state])).mp band, mark s, here, by simp [mark, state]⟩

-- Once a terminal band is out there is nothing left to band.
theorem terminalQuiet {w : World} (inv : Invariant w) (sink : Sink w) (past : hasTerminal (inForce w)) :
    (bandJob w).trees = [] := by
  refine List.eq_nil_iff_forall_not_mem.mpr fun tree mem => ?_
  obtain ⟨absent, m, here, -⟩ := listedFresh sink (List.mem_map_of_mem (f := Prod.fst) mem)
  exact absent (inv.kept.complete past _ (List.getElem?_eq_some_iff.mp here).1)

def emitted (w : World) : World :=
  { w with
    registry := { w.registry with slots := w.registry.slots.map (Slot.provisional w.nextBandId) }
    nextBandId := w.nextBandId + 1
    terminalBandEmitted := (bandJob w).terminal || w.terminalBandEmitted
    queue := w.queue ++ [bandJob w] }

theorem emittedForce (w : World) : inForce (emitted w) = inForce w ++ [bandJob w] :=
  by simp [inForce, pending, emitted]

theorem emitBandJobCases (w : World) : emitBandJob w = w ∧ (w.bandSink = false ∨ w.registry.mutableDataset = true ∨
      (bandJob w).trees = [] ∧ ((bandJob w).terminal = false ∨ w.terminalBandEmitted = true)) ∨
    (w.bandSink = true ∧ w.registry.mutableDataset = false ∧
      ((bandJob w).trees = [] → (bandJob w).terminal = true ∧ w.terminalBandEmitted = false) ∧
      emitBandJob w = emitted w) := by
  unfold emitBandJob
  split
  · rename_i off
    refine Or.inl ⟨rfl, ?_⟩
    simp only [Bool.or_eq_true, Bool.not_eq_true'] at off
    exact off.imp_right Or.inl
  · rename_i on
    simp only [Bool.or_eq_true, Bool.not_eq_true', not_or, Bool.not_eq_false, Bool.not_eq_true] at on
    dsimp only
    split
    · rename_i nothing
      refine Or.inl ⟨rfl, Or.inr (Or.inr ⟨nothing.1, ?_⟩)⟩
      simpa [Bool.or_eq_true] using nothing.2
    · rename_i something
      refine Or.inr ⟨on.1, on.2, fun none_ => ?_, rfl⟩
      have either := fun more => something ⟨none_, more⟩
      simpa [Bool.or_eq_true] using either

theorem emittedInvariant {w : World} (inv : Invariant w) (sink : Sink w) (on : w.bandSink = true)
    (chain : w.chain = .committed)
    (sound : ¬w.registry.lodWatermark < terminal → ∀ i < w.registry.slots.length, Sealed w.registry.slots i)
    (needed : (bandJob w).trees = [] → (bandJob w).terminal = true ∧ w.terminalBandEmitted = false) :
    Invariant { emitted w with chain := .idle } := by
  have open_ : ¬hasTerminal (inForce w) := by
    intro past
    have late := (needed (terminalQuiet inv sink past)).2
    rw [sink.terminal.mpr past] at late
    cases late
  have force : inForce { emitted w with chain := .idle } = inForce w ++ [bandJob w] := emittedForce w
  have same : live { emitted w with chain := .idle } =
      marks (w.registry.slots.map (Slot.provisional w.nextBandId)) := rfl
  have taken := inv.taken
  unfold ChainSound at taken
  rw [chain] at taken
  obtain ⟨r, readable, index, snapshot⟩ := taken
  -- What the marks were before, slot by slot.
  have before {i : Nat} {m : Mark}
      (here : (marks (w.registry.slots.map (Slot.provisional w.nextBandId)))[i]? = some m) :
      ∃ s, w.registry.slots[i]? = some s ∧ m = if s.unbanded then (s.state, some w.nextBandId) else mark s := by
    simp only [marks, List.getElem?_map, Option.map_map] at here
    obtain ⟨s, there, rfl⟩ := Option.map_eq_some_iff.mp here
    exact ⟨s, there, provisionalMark w.nextBandId s⟩
  have complete (past : hasTerminal (inForce w ++ [bandJob w])) (i) (short : i < (live w).length) :
      i ∈ members (inForce w ++ [bandJob w]) := by
    obtain ⟨job, mem, terminal⟩ := past
    have newest : (bandJob w).terminal = true := by
      rcases List.mem_append.mp mem with old | new
      · exact absurd ⟨job, old, terminal⟩ open_
      · rwa [← List.mem_singleton.mp new]
    rw [bandJob, Bool.not_eq_true', decide_eq_false_iff_not] at newest
    rw [live, marks, List.length_map] at short
    rw [jobMembers]
    rcases sealedListed inv sink (sealedIff.mp (sound newest i short)) with old | new
    · exact List.mem_append_left _ old
    · exact List.mem_append_right _ new
  refine ⟨?_, ?_, ?_, ?_, fun r' readable' here => ?_, fun none_ => ?_, trivial, fun _ => ⟨?_, ?_, ?_⟩,
    fun off => ?_, inv.named, inv.posted⟩
  all_goals try rw [force]
  all_goals try rw [same]
  · rw [List.map_append, inv.consecutive, List.length_append, List.length_singleton, List.range_succ]
    simp [bandJob, sink.next]
  · rw [jobMembers]
    refine List.Nodup.append inv.once (bandTreesNodup _) fun i old new => (listedFresh sink new).1 old
  · rw [List.dropLast_concat]
    intro job mem
    cases terminal : job.terminal with
    | false => rfl
    | true => exact absurd ⟨job, mem, terminal⟩ open_
  · refine ⟨fun i mem => ?_, fun i band here => ?_, fun i band here => ?_, fun past i short => ?_⟩
    · rw [jobMembers] at mem
      have sealed : SealedMark (live w) i := by
        rcases List.mem_append.mp mem with old | new
        · exact inv.kept.sealed i old
        · exact (listedFresh sink new).2
      obtain ⟨m, here, closed⟩ := sealed
      obtain ⟨s, there, rfl⟩ := liveSlot.mp here
      refine ⟨mark (s.provisional w.nextBandId), by simp [marks, there], ?_⟩
      rw [provisionalMark]
      split <;> exact closed
    · obtain ⟨s, there, same⟩ := before here
      split at same
      · rename_i unbanded
        rw [(unbandedIff.mp unbanded).1] at same
        cases same
      · exact inv.kept.uploaded i band (liveSlot.mpr ⟨s, there, same.symm⟩)
    · obtain ⟨s, there, same⟩ := before here
      split at same
      · rename_i unbanded
        rw [(unbandedIff.mp unbanded).1] at same
        cases same
      · exact inv.kept.building i band (liveSlot.mpr ⟨s, there, same.symm⟩)
    · refine complete past i ?_
      simpa [live, marks] using short
  · have known := inv.index r' readable' here
    cases index.symm.trans here
    refine ⟨fun i mem => ?_, known.uploaded, known.building, fun past i short => ?_⟩
    · rw [jobMembers] at mem
      rcases List.mem_append.mp mem with old | new
      · exact known.sealed i old
      · exact snapshot.sealed i (listedFresh sink new).2
    · exact complete past i (Nat.lt_of_lt_of_le short snapshot.length)
  · exact absurd (index.symm.trans none_) (by simp)
  · intro i m here closed
    obtain ⟨s, there, same⟩ := before here
    rw [jobMembers, List.mem_append, not_or]
    split at same
    · rename_i unbanded
      rw [same]
      refine ⟨fun none_ => (nomatch none_), fun absent => ?_⟩
      exact absurd (bandTreesIds.mpr ⟨s, there, unbanded⟩) absent.2
    · rename_i banded
      rw [sink.flagged i m (liveSlot.mpr ⟨s, there, same.symm⟩) closed]
      refine ⟨fun absent => ⟨absent, fun listed => ?_⟩, fun absent => absent.1⟩
      obtain ⟨other, here', unbanded⟩ := bandTreesIds.mp listed
      cases there.symm.trans here'
      exact banded unbanded
  · show w.nextBandId + 1 = _
    rw [List.length_append, List.length_singleton, sink.next]
  · show ((bandJob w).terminal || w.terminalBandEmitted) = true ↔ _
    rw [Bool.or_eq_true, sink.terminal]
    constructor
    · rintro (past | past)
      · exact ⟨_, List.mem_append_right _ List.mem_cons_self, past⟩
      · exact absurd past open_
    · rintro ⟨job, mem, past⟩
      rcases List.mem_append.mp mem with old | new
      · exact Or.inr ⟨job, old, past⟩
      · rw [List.mem_singleton.mp new] at past
        exact Or.inl past
  · rw [show w.bandSink = false from off] at on
    cases on

theorem emitBandJobInvariant {w : World} (inv : Invariant w) (chain : w.chain = .committed)
    (sound : StepSound w .emitBandJob) : Invariant { emitBandJob w with chain := .idle } := by
  rcases emitBandJobCases w with ⟨same, -⟩ | ⟨on, fixed, needed, same⟩
  · rw [same]
    exact ⟨inv.consecutive, inv.once, inv.last, inv.kept, inv.index, inv.origin, trivial,
      fun on => ⟨(inv.sink on).flagged, (inv.sink on).next, (inv.sink on).terminal⟩, inv.noSink, inv.named, inv.posted⟩
  · rw [same]
    exact emittedInvariant inv (inv.sink on) on chain (sound on fixed) needed

theorem performInvariant {w : World} {a : Action} (inv : Invariant w) (sound : StepSound w a) :
    Invariant (perform w a) := by
  have slotStep {i : Nat} {f : Slot → Slot} (same : ∀ s, mark (f s) = mark s) :
      live { w with registry := w.registry.modify i f } = live w := marksModify same
  cases a with
  | addTree mortonMax storageMap => exact addTreeInvariant inv sound mortonMax storageMap
  | changeTree i storageMap leavesCollapsed =>
    have same : live (changeTree w i storageMap leavesCollapsed) = live w := slotStep fun _ => rfl
    exact quietInvariant inv same rfl (takenSame same rfl rfl rfl) rfl rfl rfl rfl rfl rfl rfl
  | loadTree i mortonMax leavesCollapsed map =>
    have same : live (loadTree w i mortonMax leavesCollapsed map) = live w := slotStep fun _ => rfl
    exact quietInvariant inv same rfl (takenSame same rfl rfl rfl) rfl rfl rfl rfl rfl rfl rfl
  | setMutable value | lowerLodFloor floor | generateLod max | passConcluded | requestCheckpoint =>
    exact quietInvariant inv rfl rfl (takenSame rfl rfl rfl rfl) rfl rfl rfl rfl rfl rfl rfl
  | serializeTrees failing => exact serializeTreesInvariant inv failing
  | treesWritten locations ok =>
    simp only [perform]
    split
    · exact treesWrittenInvariant inv _ locations ok
    · exact inv
  | registryWritten location ok =>
    simp only [perform]
    split
    · rename_i chain
      refine quietInvariant inv rfl rfl (fun taken => ?_) rfl rfl rfl rfl rfl rfl rfl
      unfold ChainSound at taken
      rw [chain] at taken
      exact taken
    · exact inv
  | indexWritten metadata ok =>
    simp only [perform]
    split
    · rename_i chain
      exact indexWrittenInvariant inv chain metadata ok
    · exact inv
  | emitBandJob =>
    simp only [perform]
    split
    · rename_i chain
      exact emitBandJobInvariant inv chain sound
    · exact inv
  | deliverBand =>
    simp only [perform]
    split
    · exact inv
    · rename_i queue
      exact deliverBandInvariant inv queue
  | commitBand =>
    simp only [perform]
    split
    · exact inv
    · rename_i flight
      have after := commitBandInvariant inv flight
      rw [committed inv flight] at after ⊢
      exact handleFollowingInvariant after rfl sound
  | markBandUploaded =>
    simp only [perform]
    split
    · exact inv
    · rename_i posted
      exact markBandUploadedInvariant inv posted
  | openCache sink => exact openCacheInvariant inv sink

/-! ## Runs -/

theorem reachedInvariant {sink w} (reach : Reachable ((system sink).under StepSound) w) : Invariant w := by
  refine reachableInvariant ⟨?_, ?_⟩ reach
  · rintro w rfl
    exact startInvariant sink
  · rintro w a after inv ⟨sound, -, rfl⟩
    exact performInvariant inv sound

theorem lastOnce {jobs : List BandJob} (last : ∀ job ∈ jobs.dropLast, job.terminal = false) :
    jobs.countP BandJob.terminal ≤ 1 := by
  rcases List.eq_nil_or_concat jobs with rfl | ⟨before, job, rfl⟩
  · exact Nat.zero_le _
  · rw [List.concat_eq_append] at last ⊢
    rw [List.dropLast_concat] at last
    have none_ : before.countP BandJob.terminal = 0 :=
      List.countP_eq_zero.mpr fun job mem => by rw [last job mem]; exact Bool.false_ne_true
    rw [List.countP_append, none_, Nat.zero_add]
    exact List.countP_le_length

theorem invariantEmitted {w : World} (inv : Invariant w) (on : w.bandSink = true)
    (fixed : w.registry.mutableDataset = false) :
    (∀ i, Sealed w.registry.slots i → i ∈ members (inForce (emitBandJob w))) ∧
      (¬w.registry.lodWatermark < terminal → hasTerminal (inForce (emitBandJob w))) := by
  have sink := inv.sink on
  have late (past : ¬w.registry.lodWatermark < terminal) : (bandJob w).terminal = true := by
    rw [bandJob, Bool.not_eq_true', decide_eq_false_iff_not]
    exact past
  rcases emitBandJobCases w with ⟨same, why⟩ | ⟨-, -, -, same⟩
  · rw [same]
    obtain ⟨none_, quiet⟩ : (bandJob w).trees = [] ∧ ((bandJob w).terminal = false ∨ w.terminalBandEmitted = true) := by
      rcases why with off | changing | quiet
      · rw [on] at off
        cases off
      · rw [fixed] at changing
        cases changing
      · exact quiet
    refine ⟨fun i sealed => ?_, fun past => ?_⟩
    · rcases sealedListed inv sink (sealedIff.mp sealed) with old | new
      · exact old
      · rw [show bandTrees w.registry.slots = [] from none_] at new
        exact absurd new List.not_mem_nil
    · rcases quiet with open_ | past'
      · rw [late past] at open_
        cases open_
      · exact sink.terminal.mp past'
  · rw [same, emittedForce]
    refine ⟨fun i sealed => ?_, fun past => ⟨_, List.mem_append_right _ List.mem_cons_self, late past⟩⟩
    rw [jobMembers]
    rcases sealedListed inv sink (sealedIff.mp sealed) with old | new
    · exact List.mem_append_left _ old
    · exact List.mem_append_right _ new

theorem finalTreesBanded {sink w} (reach : Reachable ((system sink).under StepSound) w) : Banded w := by
  have inv := reachedInvariant reach
  refine ⟨inv.consecutive, inv.once, fun i mem => sealedIff.mpr (inv.kept.sealed i mem), lastOnce inv.last,
    fun past i short => inv.kept.complete past i ?_, invariantEmitted inv⟩
  rwa [live, marks, List.length_map]

def unit : InputStorageMap := ⟨fun _ => none, []⟩

def checkpoint (first : Nat) (trees : Nat) : List Action :=
  [.serializeTrees [], .treesWritten ((List.range trees).map fun i => ⟨0, first + i, 10⟩) true,
    .registryWritten ⟨0, first + 50, 10⟩ true, .indexWritten [⟨0, first + 51, 10⟩] true]

-- Tree 0 is banded at the first pass, the cache is opened again before the band is uploaded, and the last
-- pass, with tree 1 loaded and collapsed, bands both.
def resumed : List Action :=
  [.addTree 10 unit, .addTree 90 unit, .changeTree 0 unit true, .generateLod 50, .passConcluded] ++
    checkpoint 100 2 ++ [.emitBandJob, .openCache true, .loadTree 0 10 true unit.map, .loadTree 1 90 false unit.map,
      .changeTree 1 unit true, .generateLod terminal, .passConcluded] ++ checkpoint 200 1 ++
    [.emitBandJob, .deliverBand, .commitBand, .markBandUploaded]

theorem resumedBanded : Banded (resumed.foldl perform (start true)) :=
  finalTreesBanded (reachableAllowed (by decide))

example : (resumed.foldl perform (start true)).bucket.map (fun job => (job.bandId, job.terminal, members [job])) =
    [(0, true, [0, 1])] := by decide

/-! The collapse of tree 1 fails in the last pass: the tree stays building, and the terminal band goes out
without it. -/

def uncollapsed : List Action :=
  [.addTree 10 unit, .addTree 90 unit, .changeTree 0 unit true, .generateLod terminal, .passConcluded] ++
    checkpoint 100 2 ++ [.emitBandJob]

theorem terminalBandEarly : ¬∀ sink w, Reachable (system sink) w → Banded w := by
  intro all
  have run : AllAllowed (fun w a => True ∧ Allowed w a) perform (start true) uncollapsed := by decide
  have last := (all true _ (reachableUnder (reachableAllowed run))).terminalLast (by decide) 1 (by decide)
  exact absurd last (by decide)

end Dewfall.BandEmission
