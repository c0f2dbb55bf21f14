import Dewfall.Core.TreeArrays
import Dewfall.General.Transition

/-! process_band over one band, with its window of puts: reads and puts end in any order and with any
outcome, and a put that ends resumes the coroutine that waits for room. What the puts carry, their retries and
the statistics are left out; a tree, the registry and the band manifest serialize or fail at any try. -/
namespace Dewfall.UploadWindow
open General.Transition TreeArrays

/-! ## The window, the handler and the coroutine -/

structure PutWindow where
  inFlight : Nat
  firstError : Bool
  waiter : Bool

structure Job where
  bandId : Nat
  terminal : Bool
  trees : List (Nat × StorageLocation)
  -- The tree count of the snapshot, none when it does not deserialize.
  registrySnapshot : Option Nat

structure Handler where
  -- Cache offsets and trees with the objects they went to.
  dedup : List (BitVec 64 × Nat)
  treeLocations : List (Nat × Nat)
  nextObjectId : Nat
  bandCount : Nat
  parked : Bool

structure Manifest where
  blobs : List (BitVec 64 × Nat)
  trees : List (Nat × Nat)

-- The tree being uploaded: its units in order, and the trees after it.
structure Upload where
  treeId : Nat
  units : List (List StorageLocation)
  later : List (Nat × StorageLocation)

inductive Phase where
  | nextTree (later : List (Nat × StorageLocation))
  | readTree (treeId : Nat) (later : List (Nat × StorageLocation))
  | nextUnit (u : Upload) (units : List (List StorageLocation))
  | nextLocation (u : Upload) (locations : List StorageLocation) (units : List (List StorageLocation))
  | readBlob (u : Upload) (location : StorageLocation) (locations : List StorageLocation) (units : List (List StorageLocation))
  | blobRoom (u : Upload) (location : StorageLocation) (locations : List StorageLocation) (units : List (List StorageLocation))
  | remap (u : Upload)
  | nextTreePut (left : List Nat)
  | treeRoom (treeId : Nat) (left : List Nat)
  | registry
  | attributes
  | drain
  | drainPark
  | bandManifest
  | bandPut
  | rootPut
  | returned
  -- An exception leaves the coroutine.
  | thrown

structure World where
  job : Job
  handler : Handler
  window : PutWindow
  phase : Phase
  manifest : Manifest
  remappedTrees : List Nat
  -- The puts whose coroutines have not ended, by object.
  flying : List Nat
  -- The band count of the root manifest in the bucket.
  root : Nat
  -- A read or a put of the band has failed.
  failed : Bool

def kMaxInFlightPuts : Nat := 8

def start (job : Job) (h : Handler) : World where
  job := job
  handler := h
  window := ⟨0, false, false⟩
  phase := .nextTree job.trees
  manifest := ⟨[], []⟩
  remappedTrees := []
  flying := []
  root := h.bandCount
  failed := false

/-! ## One step of the coroutine -/

def contains {α : Type} (l : List (α × Nat)) [DecidableEq α] (a : α) : Bool := l.any fun e => e.1 = a

def goto (w : World) (phase : Phase) : World := { w with phase := phase }

def launchPut (w : World) : World :=
  { w with
    window.inFlight := w.window.inFlight + 1
    flying := w.flying ++ [w.handler.nextObjectId]
    handler.nextObjectId := w.handler.nextObjectId + 1 }

-- `while (in_flight >= limit) co_await wait_for_room(limit)`, one turn of it.
def waitForRoom (w : World) (limit : Nat) (next : World) : World :=
  if limit ≤ w.window.inFlight then { w with window.waiter := true } else next

def park (w : World) : World := goto { w with handler.parked := true } .returned

def blobPut (w : World) (location : StorageLocation) : World :=
  let object := w.handler.nextObjectId
  { launchPut w with
    handler.dedup := (location.offset, object) :: w.handler.dedup
    handler.nextObjectId := object + 1
    manifest.blobs := w.manifest.blobs ++ [(location.offset, object)] }

def treePut (w : World) (treeId : Nat) : World :=
  let object := w.handler.nextObjectId
  { launchPut w with
    handler.treeLocations := (treeId, object) :: w.handler.treeLocations
    handler.nextObjectId := object + 1
    manifest.trees := w.manifest.trees ++ [(treeId, object)] }

-- The registry deserializes and each of its trees has a bucket location.
def remapped (w : World) : Bool :=
  match w.job.registrySnapshot with
  | none => false
  | some count => (List.range count).all fun i => contains w.handler.treeLocations i

-- `ok` is the outcome of the serialization a step may contain.
def resume (w : World) (ok : Bool) : World :=
  match w.phase with
  | .nextTree [] => goto w (.nextTreePut w.remappedTrees)
  | .nextTree ((treeId, _) :: later) => goto w (.readTree treeId later)
  | .nextUnit u [] => if w.window.firstError then goto w (.nextTreePut w.remappedTrees) else goto w (.remap u)
  | .nextUnit u (locations :: units) => goto w (.nextLocation u locations units)
  | .nextLocation u [] units =>
    if w.window.firstError then goto w (.nextTreePut w.remappedTrees) else goto w (.nextUnit u units)
  | .nextLocation u (location :: locations) units =>
    if location.size = 0 || contains w.handler.dedup location.offset then goto w (.nextLocation u locations units)
    else goto w (.readBlob u location locations units)
  | .blobRoom u location locations units =>
    waitForRoom w kMaxInFlightPuts <|
      if w.window.firstError then goto w (.nextTreePut w.remappedTrees)
      else goto (blobPut w location) (.nextLocation u locations units)
  | .remap u =>
    if u.units.flatten.any fun l => l.size ≠ 0 && !contains w.handler.dedup l.offset then goto w .thrown
    else if ok then goto { w with remappedTrees := w.remappedTrees ++ [u.treeId] } (.nextTree u.later)
    else park w
  | .nextTreePut [] => goto w .registry
  | .nextTreePut (treeId :: left) => if w.window.firstError then goto w .registry else goto w (.treeRoom treeId left)
  | .treeRoom treeId left => waitForRoom w kMaxInFlightPuts (goto (treePut w treeId) (.nextTreePut left))
  | .registry =>
    if w.job.terminal && !w.window.firstError then
      if remapped w && ok then goto (launchPut w) .attributes else goto w .drainPark
    else goto w .drain
  | .attributes => goto (launchPut w) .drain
  | .drain => waitForRoom w 1 (if w.window.firstError then park w else goto w .bandManifest)
  | .drainPark => waitForRoom w 1 (park w)
  | .bandManifest => if ok then goto w .bandPut else park w
  | .readTree _ _ | .readBlob _ _ _ _ | .bandPut | .rootPut | .returned | .thrown => w

inductive TreeRead where
  | error
  | malformed
  | units (units : List (List StorageLocation))

inductive Action where
  | resume (ok : Bool)
  | treeRead (read : TreeRead)
  | blobRead (ok : Bool)
  | manifestPut (ok : Bool)
  -- A put of the window ends.
  | complete (object : Nat) (ok : Bool)

def complete (w : World) (object : Nat) (ok : Bool) : World :=
  { w with
    window := ⟨w.window.inFlight - 1, w.window.firstError || !ok, false⟩
    flying := w.flying.erase object
    failed := w.failed || !ok }

def perform (w : World) : Action → World
  | .resume ok => resume w ok
  | .treeRead read =>
    match w.phase, read with
    | .readTree _ _, .error => goto { w with failed := true } .drainPark
    | .readTree _ _, .malformed => goto w .drainPark
    | .readTree treeId later, .units units => goto w (.nextUnit ⟨treeId, units, later⟩ units)
    | _, _ => w
  | .blobRead ok =>
    match w.phase with
    | .readBlob u location locations units =>
      if ok then goto w (.blobRoom u location locations units) else goto { w with failed := true } .drainPark
    | _ => w
  | .manifestPut ok =>
    match w.phase with
    | .bandPut => if ok then goto w .rootPut else park { w with failed := true }
    | .rootPut =>
      if ok then goto { w with root := w.job.bandId + 1, handler.bandCount := w.job.bandId + 1 } .returned
      else park { w with failed := true }
    | _ => w
  | .complete object ok => complete w object ok

def awaitsTree : Phase → Bool
  | .readTree _ _ => true
  | _ => false

def awaitsBlob : Phase → Bool
  | .readBlob _ _ _ _ => true
  | _ => false

def awaitsManifest : Phase → Bool
  | .bandPut | .rootPut => true
  | _ => false

def ended : Phase → Bool
  | .returned | .thrown => true
  | _ => false

def Allowed (w : World) : Action → Prop
  | .resume _ =>
    (w.window.waiter || awaitsTree w.phase || awaitsBlob w.phase || awaitsManifest w.phase || ended w.phase) = false
  | .treeRead _ => awaitsTree w.phase = true
  | .blobRead _ => awaitsBlob w.phase = true
  | .manifestPut _ => awaitsManifest w.phase = true
  | .complete object _ => object ∈ w.flying

instance (w : World) : (a : Action) → Decidable (Allowed w a)
  | .resume _ => inferInstanceAs (Decidable (_ = false))
  | .treeRead _ | .blobRead _ | .manifestPut _ => inferInstanceAs (Decidable (_ = true))
  | .complete object _ => inferInstanceAs (Decidable (object ∈ w.flying))

def system (job : Job) (h : Handler) : System World Action := .ofFunction (start job h) Allowed perform

/-! ## The steps that keep to the window -/

-- The registry and the attributes find room, and no tree fails to serialize again over a put in flight.
def RoomFor (w : World) (ok : Bool) : Phase → Prop
  | .remap _ => ok = true ∨ w.flying = []
  | .registry => w.job.terminal = true → w.window.firstError = false → remapped w = true → ok = true →
    w.flying.length < kMaxInFlightPuts
  | .attributes => w.flying.length < kMaxInFlightPuts
  | _ => True

instance (w : World) (ok : Bool) : (phase : Phase) → Decidable (RoomFor w ok phase)
  | .remap _ => inferInstanceAs (Decidable (ok = true ∨ w.flying = []))
  | .registry => inferInstanceAs (Decidable (w.job.terminal = true → w.window.firstError = false → remapped w = true →
      ok = true → w.flying.length < kMaxInFlightPuts))
  | .attributes => inferInstanceAs (Decidable (w.flying.length < kMaxInFlightPuts))
  | .nextTree _ | .readTree _ _ | .nextUnit _ _ | .nextLocation _ _ _ | .readBlob _ _ _ _ | .blobRoom _ _ _ _
  | .nextTreePut _ | .treeRoom _ _ | .drain | .drainPark | .bandManifest | .bandPut | .rootPut | .returned
  | .thrown => inferInstanceAs (Decidable True)

def StepSound (w : World) : Action → Prop
  | .resume ok => RoomFor w ok w.phase
  | _ => True

instance (w : World) : (a : Action) → Decidable (StepSound w a)
  | .resume ok => inferInstanceAs (Decidable (RoomFor w ok w.phase))
  | .treeRead _ | .blobRead _ | .manifestPut _ | .complete _ _ => inferInstanceAs (Decidable True)

structure Counted (w : World) : Prop where
  flying : w.window.inFlight = w.flying.length
  bound : w.flying.length ≤ kMaxInFlightPuts

variable {w : World} {ok : Bool}

theorem launchCounted (counted : Counted w) (room : w.flying.length < kMaxInFlightPuts) : Counted (launchPut w) := by
  have longer : (launchPut w).flying.length = w.flying.length + 1 := List.length_append
  exact ⟨(congrArg (· + 1) counted.flying).trans longer.symm, longer.trans_le room⟩

theorem waitCounted {limit : Nat} {next : World} (counted : Counted w)
    (after : w.flying.length < limit → Counted next) : Counted (waitForRoom w limit next) := by
  unfold waitForRoom
  split
  · exact ⟨counted.flying, counted.bound⟩
  · rename_i room
    exact after (Nat.lt_of_not_le (counted.flying ▸ room))

theorem resumeCounted (counted : Counted w) (sound : StepSound w (.resume ok)) : Counted (resume w ok) := by
  have moved : ∀ {v : World} {phase}, Counted v → Counted (goto v phase) := fun known => ⟨known.flying, known.bound⟩
  have parked : Counted (park w) := ⟨counted.flying, counted.bound⟩
  unfold resume
  split
  case h_3 | h_5 | h_6 | h_10 | h_16 =>
    split
    · exact moved counted
    · first | exact moved counted | exact parked
  case h_7 =>
    refine waitCounted counted fun room => ?_
    split
    · exact moved counted
    · exact moved ⟨(launchCounted counted room).flying, (launchCounted counted room).bound⟩
  case h_8 =>
    split
    · exact moved counted
    · split
      · exact ⟨counted.flying, counted.bound⟩
      · exact parked
  case h_11 =>
    refine waitCounted counted fun room => ?_
    exact moved ⟨(launchCounted counted room).flying, (launchCounted counted room).bound⟩
  case h_12 phase =>
    simp only [StepSound, RoomFor, phase] at sound
    split
    · rename_i last
      simp only [Bool.and_eq_true, Bool.not_eq_true'] at last
      split
      · rename_i both
        simp only [Bool.and_eq_true] at both
        exact moved (launchCounted counted (sound last.1 last.2 both.1 both.2))
      · exact moved counted
    · exact moved counted
  case h_13 phase =>
    simp only [StepSound, RoomFor, phase] at sound
    exact moved (launchCounted counted sound)
  case h_14 =>
    refine waitCounted counted fun _ => ?_
    split
    · exact parked
    · exact moved counted
  case h_15 => exact waitCounted counted fun _ => parked
  all_goals exact moved counted

theorem performCounted {a : Action} (counted : Counted w) (may : Allowed w a) (sound : StepSound w a) :
    Counted (perform w a) := by
  cases a with
  | resume ok => exact resumeCounted counted sound
  | treeRead read =>
    unfold perform
    dsimp only
    split
    all_goals exact ⟨counted.flying, counted.bound⟩
  | blobRead ok =>
    unfold perform
    dsimp only
    split
    · split
      all_goals exact ⟨counted.flying, counted.bound⟩
    · exact counted
  | manifestPut ok =>
    unfold perform
    dsimp only
    split
    · split
      all_goals exact ⟨counted.flying, counted.bound⟩
    · split
      all_goals exact ⟨counted.flying, counted.bound⟩
    · exact counted
  | complete object ok =>
    have shorter := List.length_erase_of_mem (may : object ∈ w.flying)
    refine ⟨?_, ?_⟩
    · change w.window.inFlight - 1 = (w.flying.erase object).length
      rw [shorter, counted.flying]
    · change (w.flying.erase object).length ≤ kMaxInFlightPuts
      rw [shorter]
      exact Nat.le_trans (Nat.sub_le ..) counted.bound

/-! ## What is put was read -/

-- Every location of the tree has an object, or is still ahead.
def Covered (h : Handler) (u : Upload) (ahead : List StorageLocation) : Prop :=
  ∀ l ∈ u.units.flatten, l.size ≠ 0 → contains h.dedup l.offset = true ∨ l ∈ ahead

def Uploaded (w : World) : Prop :=
  match w.phase with
  | .nextUnit u units => Covered w.handler u units.flatten
  | .nextLocation u locations units => Covered w.handler u (locations ++ units.flatten)
  | .readBlob u location locations units | .blobRoom u location locations units =>
    Covered w.handler u (location :: (locations ++ units.flatten))
  | .remap u => Covered w.handler u []
  | .thrown => False
  | _ => True

theorem passed {h : Handler} {u : Upload} {l : StorageLocation} {ahead : List StorageLocation}
    (covered : Covered h u (l :: ahead)) (known : l.size = 0 ∨ contains h.dedup l.offset = true) : Covered h u ahead := by
  intro m member some_
  rcases covered m member some_ with there | later
  · exact .inl there
  · rcases List.mem_cons.mp later with rfl | after
    · exact .inl (known.resolve_left some_)
    · exact .inr after

theorem blobPutKnown {w : World} {location : StorageLocation} {u : Upload} {ahead : List StorageLocation}
    (covered : Covered w.handler u (location :: ahead)) : Covered (blobPut w location).handler u ahead := by
  have more : ∀ o, contains (blobPut w location).handler.dedup o = true ↔
      o = location.offset ∨ contains w.handler.dedup o = true := fun o => by
    change (decide (location.offset = o) || contains w.handler.dedup o) = true ↔ _
    rw [Bool.or_eq_true, decide_eq_true_eq, eq_comm]
  intro m member some_
  rcases covered m member some_ with there | later
  · exact .inl ((more _).mpr (.inr there))
  · rcases List.mem_cons.mp later with rfl | after
    · exact .inl ((more _).mpr (.inl rfl))
    · exact .inr after

theorem resumeUploaded (uploaded : Uploaded w) : Uploaded (resume w ok) := by
  unfold resume
  split
  case h_3 u phase =>
    simp only [Uploaded, phase] at uploaded
    split
    · trivial
    · exact uploaded
  case h_4 u locations units phase =>
    simp only [Uploaded, phase] at uploaded
    exact uploaded
  case h_5 u units phase =>
    simp only [Uploaded, phase] at uploaded
    split
    · trivial
    · exact uploaded
  case h_6 u location locations units phase =>
    simp only [Uploaded, phase] at uploaded
    split
    · rename_i known
      simp only [Bool.or_eq_true, decide_eq_true_eq] at known
      exact passed uploaded known
    · exact uploaded
  case h_7 u location locations units phase =>
    unfold waitForRoom
    split
    · exact uploaded
    · simp only [Uploaded, phase] at uploaded
      split
      · trivial
      · exact blobPutKnown uploaded
  case h_8 u phase =>
    simp only [Uploaded, phase] at uploaded
    split
    · rename_i missing
      obtain ⟨l, member, lost⟩ := List.any_eq_true.mp missing
      simp only [Bool.and_eq_true, decide_eq_true_eq, Bool.not_eq_true', ne_eq] at lost
      rcases uploaded l member lost.1 with there | none_
      · rw [lost.2] at there
        cases there
      · cases none_
    · split
      · trivial
      · trivial
  case h_10 =>
    split
    · trivial
    · trivial
  case h_11 phase =>
    unfold waitForRoom
    split
    · simp only [Uploaded, phase]
    · trivial
  case h_12 =>
    split
    · split
      · trivial
      · trivial
    · trivial
  case h_14 phase =>
    unfold waitForRoom
    split
    · simp only [Uploaded, phase]
    · split
      · trivial
      · trivial
  case h_15 phase =>
    unfold waitForRoom
    split
    · simp only [Uploaded, phase]
    · trivial
  case h_16 =>
    split
    · trivial
    · trivial
  all_goals trivial

theorem performUploaded {a : Action} (uploaded : Uploaded w) : Uploaded (perform w a) := by
  cases a with
  | resume ok => exact resumeUploaded uploaded
  | treeRead read =>
    unfold perform
    dsimp only
    split
    case h_3 =>
      exact fun l member _ => .inr member
    case h_4 => exact uploaded
    all_goals trivial
  | blobRead ok =>
    unfold perform
    dsimp only
    split
    · rename_i u location locations units phase
      split
      · simp only [Uploaded, phase] at uploaded
        exact uploaded
      · trivial
    · exact uploaded
  | manifestPut ok =>
    unfold perform
    dsimp only
    split
    · split
      · trivial
      · trivial
    · split
      · trivial
      · trivial
    · exact uploaded
  | complete object ok => exact uploaded

/-! ## How the call ends -/

structure Ending (bandCount : Nat) (w : World) : Prop where
  -- The manifests are put behind the drained window of a band in which nothing failed.
  putting : w.phase = .bandManifest ∨ w.phase = .bandPut ∨ w.phase = .rootPut → w.flying = [] ∧ w.failed = false
  returned : w.phase = .returned → w.flying = []
  kept : w.root = bandCount ∧ w.handler.bandCount = bandCount ∨ w.phase = .returned ∧ w.failed = false
  noticed : w.failed = true → w.window.firstError = true ∨ w.phase = .drainPark ∨ w.phase = .returned
  parked : w.phase = .returned → w.failed = true → w.handler.parked = true

variable {bandCount : Nat}

def beforeManifests : Phase → Bool
  | .bandManifest | .bandPut | .rootPut | .returned => false
  | _ => true

theorem rootKept (ending : Ending bandCount w) (live : w.phase ≠ .returned) :
    w.root = bandCount ∧ w.handler.bandCount = bandCount :=
  ending.kept.resolve_right fun ended => live ended.1

-- Before the manifests a failure stays noted in the window, or the coroutine is on its way to park.
theorem movedEnding {v : World} (ending : Ending bandCount w) (live : w.phase ≠ .returned)
    (early : beforeManifests v.phase = true) (root : v.root = w.root) (count : v.handler.bandCount = w.handler.bandCount)
    (noticed : v.failed = true → v.window.firstError = true ∨ v.phase = .drainPark) : Ending bandCount v := by
  have kept := rootKept ending live
  refine ⟨fun late => ?_, fun ended => ?_, .inl ⟨root.trans kept.1, count.trans kept.2⟩, fun fail => ?_, fun ended => ?_⟩
  · rcases late with phase | phase | phase
    all_goals
      rw [phase] at early
      cases early
  · rw [ended] at early
    cases early
  · exact (noticed fail).elim .inl fun phase => .inr (.inl phase)
  · rw [ended] at early
    cases early

theorem gotoEnding {phase : Phase} (ending : Ending bandCount w) (live : w.phase ≠ .returned)
    (other : w.phase ≠ .drainPark) (early : beforeManifests phase = true) : Ending bandCount (goto w phase) :=
  movedEnding ending live early rfl rfl fun fail => .inl ((ending.noticed fail).resolve_right fun h => h.elim other live)

theorem parkEnding (ending : Ending bandCount w) (live : w.phase ≠ .returned) (drained : w.flying = []) :
    Ending bandCount (park w) := by
  have kept := rootKept ending live
  refine ⟨fun late => ?_, fun _ => drained, .inl kept, fun _ => .inr (.inr rfl), fun _ _ => rfl⟩
  rcases late with phase | phase | phase
  all_goals cases phase

theorem waitEnding {limit : Nat} {next : World} (ending : Ending bandCount w)
    (after : w.window.inFlight < limit → Ending bandCount next) : Ending bandCount (waitForRoom w limit next) := by
  unfold waitForRoom
  split
  · exact ⟨ending.putting, ending.returned, ending.kept, ending.noticed, ending.parked⟩
  · rename_i room
    exact after (Nat.lt_of_not_le room)

theorem drained (counted : Counted w) (none_ : w.window.inFlight < 1) : w.flying = [] :=
  List.length_eq_zero_iff.mp (counted.flying.symm.trans (Nat.lt_one_iff.mp none_))

theorem resumeEnding (counted : Counted w) (ending : Ending bandCount w) (sound : StepSound w (.resume ok)) :
    Ending bandCount (resume w ok) := by
  have from_ : ∀ {phase}, w.phase = phase → phase ≠ .returned → phase ≠ .drainPark → ∀ {next},
      beforeManifests next = true → Ending bandCount (goto w next) := fun {_} here live other {_} early =>
    gotoEnding ending (here ▸ live) (here ▸ other) early
  have unnoticed : ∀ {phase}, w.phase = phase → phase ≠ .returned → phase ≠ .drainPark → w.failed = true →
      w.window.firstError = true := fun {_} here live other fail =>
    (ending.noticed fail).resolve_right fun h => h.elim (here ▸ other) (here ▸ live)
  unfold resume
  split
  case h_3 phase | h_5 phase | h_6 phase =>
    split
    · exact from_ phase (fun h => nomatch h) (fun h => nomatch h) rfl
    · exact from_ phase (fun h => nomatch h) (fun h => nomatch h) rfl
  case h_7 phase =>
    refine waitEnding ending fun _ => ?_
    split
    · exact from_ phase (fun h => nomatch h) (fun h => nomatch h) rfl
    · refine movedEnding ending (by rw [phase]; exact fun h => nomatch h) rfl rfl rfl fun fail => .inl ?_
      exact unnoticed phase (fun h => nomatch h) (fun h => nomatch h) fail
  case h_8 phase =>
    simp only [StepSound, RoomFor, phase] at sound
    split
    · exact from_ phase (fun h => nomatch h) (fun h => nomatch h) rfl
    · split
      · refine movedEnding ending (by rw [phase]; exact fun h => nomatch h) rfl rfl rfl fun fail => .inl ?_
        exact unnoticed phase (fun h => nomatch h) (fun h => nomatch h) fail
      · rename_i refused
        exact parkEnding ending (by rw [phase]; exact fun h => nomatch h) (sound.resolve_left refused)
  case h_10 phase =>
    split
    · exact from_ phase (fun h => nomatch h) (fun h => nomatch h) rfl
    · exact from_ phase (fun h => nomatch h) (fun h => nomatch h) rfl
  case h_11 phase =>
    refine waitEnding ending fun _ => ?_
    refine movedEnding ending (by rw [phase]; exact fun h => nomatch h) rfl rfl rfl fun fail => .inl ?_
    exact unnoticed phase (fun h => nomatch h) (fun h => nomatch h) fail
  case h_12 phase =>
    split
    · split
      · refine movedEnding ending (by rw [phase]; exact fun h => nomatch h) rfl rfl rfl fun fail => .inl ?_
        exact unnoticed phase (fun h => nomatch h) (fun h => nomatch h) fail
      · exact from_ phase (fun h => nomatch h) (fun h => nomatch h) rfl
    · exact from_ phase (fun h => nomatch h) (fun h => nomatch h) rfl
  case h_13 phase =>
    refine movedEnding ending (by rw [phase]; exact fun h => nomatch h) rfl rfl rfl fun fail => .inl ?_
    exact unnoticed phase (fun h => nomatch h) (fun h => nomatch h) fail
  case h_14 phase =>
    refine waitEnding ending fun none_ => ?_
    have live : w.phase ≠ .returned := by
      rw [phase]
      exact fun h => nomatch h
    split
    · exact parkEnding ending live (drained counted none_)
    · rename_i clean
      have fine : w.failed = false := Bool.eq_false_iff.mpr fun fail =>
        clean (unnoticed phase (fun h => nomatch h) (fun h => nomatch h) fail)
      have empty := drained counted none_
      have kept := rootKept ending live
      refine ⟨fun _ => ⟨empty, fine⟩, fun ended => (nomatch ended), .inl kept,
        fun fail => ?_, fun ended => (nomatch ended)⟩
      exact absurd (fine.symm.trans fail) Bool.false_ne_true
  case h_15 phase =>
    refine waitEnding ending fun none_ => ?_
    exact parkEnding ending (by rw [phase]; exact fun h => nomatch h) (drained counted none_)
  case h_16 phase =>
    have live : w.phase ≠ .returned := by
      rw [phase]
      exact fun h => nomatch h
    obtain ⟨empty, fine⟩ := ending.putting (.inl phase)
    have kept := rootKept ending live
    split
    · refine ⟨fun _ => ⟨empty, fine⟩, fun ended => (nomatch ended), .inl kept, fun fail => ?_,
        fun ended => (nomatch ended)⟩
      exact absurd (fine.symm.trans fail) Bool.false_ne_true
    · exact parkEnding ending live empty
  case h_1 phase | h_2 phase | h_4 phase | h_9 phase =>
    exact from_ phase (fun h => nomatch h) (fun h => nomatch h) rfl
  all_goals exact ending

theorem treeAwaited {phase : Phase} (awaits : awaitsTree phase = true) :
    ∃ treeId later, phase = .readTree treeId later := by
  cases phase with
  | readTree treeId later => exact ⟨treeId, later, rfl⟩
  | _ => cases awaits

theorem blobAwaited {phase : Phase} (awaits : awaitsBlob phase = true) :
    ∃ u location locations units, phase = .readBlob u location locations units := by
  cases phase with
  | readBlob u location locations units => exact ⟨u, location, locations, units, rfl⟩
  | _ => cases awaits

theorem manifestAwaited {phase : Phase} (awaits : awaitsManifest phase = true) :
    phase = .bandPut ∨ phase = .rootPut := by
  cases phase with
  | bandPut => exact .inl rfl
  | rootPut => exact .inr rfl
  | _ => cases awaits

theorem performEnding {a : Action} (counted : Counted w) (ending : Ending bandCount w) (may : Allowed w a)
    (sound : StepSound w a) : Ending bandCount (perform w a) := by
  cases a with
  | resume ok => exact resumeEnding counted ending sound
  | treeRead read =>
    obtain ⟨treeId, later, phase⟩ := treeAwaited may
    have live : w.phase ≠ .returned := by
      rw [phase]
      exact fun h => nomatch h
    have other : w.phase ≠ .drainPark := by
      rw [phase]
      exact fun h => nomatch h
    unfold perform
    rw [phase]
    cases read with
    | error => exact movedEnding ending live rfl rfl rfl fun _ => .inr rfl
    | malformed => exact gotoEnding ending live other rfl
    | units units => exact gotoEnding ending live other rfl
  | blobRead ok =>
    obtain ⟨u, location, locations, units, phase⟩ := blobAwaited may
    have live : w.phase ≠ .returned := by
      rw [phase]
      exact fun h => nomatch h
    have other : w.phase ≠ .drainPark := by
      rw [phase]
      exact fun h => nomatch h
    unfold perform
    rw [phase]
    dsimp only
    split
    · exact gotoEnding ending live other rfl
    · exact movedEnding ending live rfl rfl rfl fun _ => .inr rfl
  | manifestPut ok =>
    have may := manifestAwaited may
    obtain ⟨empty, fine⟩ := ending.putting (.inr may)
    have live : w.phase ≠ .returned := fun ended => by
      rcases may with phase | phase
      all_goals
        rw [phase] at ended
        cases ended
    have kept := rootKept ending live
    have failing : Ending bandCount (park { w with failed := true }) := by
      refine ⟨fun late => ?_, fun _ => empty, .inl kept, fun _ => .inr (.inr rfl), fun _ _ => rfl⟩
      rcases late with phase | phase | phase
      all_goals cases phase
    unfold perform
    rcases may with phase | phase
    · rw [phase]
      dsimp only
      split
      · refine ⟨fun _ => ⟨empty, fine⟩, fun ended => (nomatch ended), .inl kept, fun fail => ?_,
          fun ended => (nomatch ended)⟩
        exact absurd (fine.symm.trans fail) Bool.false_ne_true
      · exact failing
    · rw [phase]
      dsimp only
      split
      · refine ⟨fun late => ?_, fun _ => empty, .inr ⟨rfl, fine⟩, fun _ => .inr (.inr rfl), fun _ fail => ?_⟩
        · rcases late with late | late | late
          all_goals cases late
        · exact absurd (fine.symm.trans fail) Bool.false_ne_true
      · exact failing
  | complete object ok =>
    have busy : w.flying ≠ [] := List.ne_nil_of_mem (may : object ∈ w.flying)
    have kept := rootKept ending fun ended => busy (ending.returned ended)
    refine ⟨fun late => absurd (ending.putting late).1 busy, fun ended => absurd (ending.returned ended) busy, .inl kept,
      fun fail => ?_, fun ended => absurd (ending.returned ended) busy⟩
    · change (w.failed || !ok) = true at fail
      rcases Bool.or_eq_true_iff.mp fail with before | now
      · rcases ending.noticed before with noted | elsewhere
        · exact .inl (Bool.or_eq_true_iff.mpr (.inl noted))
        · exact .inr elsewhere
      · exact .inl (Bool.or_eq_true_iff.mpr (.inr now))

/-! ## Whole runs -/

structure Sound (bandCount : Nat) (w : World) : Prop where
  counted : Counted w
  uploaded : Uploaded w
  ending : Ending bandCount w

theorem soundInductive (job : Job) (h : Handler) : Inductive ((system job h).under StepSound) (Sound h.bandCount) where
  initial := by
    rintro _ rfl
    refine ⟨⟨rfl, Nat.zero_le _⟩, trivial, fun late => ?_, fun ended => (nomatch ended), .inl ⟨rfl, rfl⟩,
      fun fail => (nomatch fail), fun ended => (nomatch ended)⟩
    rcases late with phase | phase | phase
    all_goals cases phase
  step := by
    rintro w a _ ⟨counted, uploaded, ending⟩ ⟨sound, may, rfl⟩
    exact ⟨performCounted counted may sound, performUploaded uploaded, performEnding counted ending may sound⟩

-- While the last two objects of a terminal band find room, the call ends behind its puts, the window keeps its
-- bound, and a failure leaves the root manifest and parks the handler.
theorem windowKept {job : Job} {h : Handler} {w : World} (reach : Reachable ((system job h).under StepSound) w) :
    (w.phase = .returned → w.flying = []) ∧ w.phase ≠ .thrown ∧ w.flying.length ≤ kMaxInFlightPuts ∧
      (w.failed = true → w.root = h.bandCount ∧ w.handler.bandCount = h.bandCount ∧
        (w.phase = .returned → w.handler.parked = true)) := by
  obtain ⟨counted, uploaded, ending⟩ := reachableInvariant (soundInductive job h) reach
  refine ⟨ending.returned, fun lost => ?_, counted.bound, fun fail => ?_⟩
  · rw [Uploaded, lost] at uploaded
    exact uploaded
  · rcases ending.kept with kept | clean
    · exact ⟨kept.1, kept.2, fun ended => ending.parked ended fail⟩
    · exact absurd (clean.2.symm.trans fail) Bool.false_ne_true

def cacheBlob (offset : Nat) : StorageLocation := ⟨0, 1, BitVec.ofNat 64 offset⟩

def blobSteps : List Action := [.resume true, .blobRead true, .resume true]

-- One tree of a terminal band, with nine blobs.
def wideBand : Job := ⟨4, true, [(2, ⟨0, 100, 0⟩)], some 3⟩

def fifthBand : Handler := ⟨[], [], 9, 4, false⟩

def nineRead : List Action :=
  [.resume true, .treeRead (.units [[1, 2, 3, 4, 5, 6, 7, 8, 9].map cacheBlob]), .resume true] ++
    (List.replicate 9 blobSteps).flatten

-- The ninth blob waits for room, the fourth put fails, and the others end while the call drains.
def fourthFails : List Action :=
  [.complete 12 false, .resume true, .resume true, .resume true, .resume true] ++
    [16, 9, 15, 10, 14, 11, 13].flatMap fun object => [.complete object true, .resume true]

def fullWindow : World := nineRead.foldl perform (start wideBand fifthBand)

def failedPut : World := (nineRead ++ fourthFails).foldl perform (start wideBand fifthBand)

theorem failedPutParks : fullWindow.flying.length = 8 ∧ fullWindow.window.waiter = true ∧ failedPut.phase = .returned ∧
    failedPut.flying = [] ∧ failedPut.root = 4 ∧ failedPut.handler.parked = true := by
  have all : AllAllowed (fun w a => StepSound w a ∧ Allowed w a) perform (start wideBand fifthBand)
      (nineRead ++ fourthFails) := by
    decide
  have kept := windowKept (reachableAllowed all)
  exact ⟨rfl, rfl, rfl, kept.1 rfl, (kept.2.2.2 rfl).1, (kept.2.2.2 rfl).2.2 rfl⟩

/-! ## A terminal band beyond the window -/

-- One tree with seven blobs.
def lastBand : Job := ⟨0, true, [(0, ⟨0, 100, 0⟩)], some 1⟩

def freshHandler : Handler := ⟨[], [], 0, 0, false⟩

def sevenBlobs : List StorageLocation := [1, 2, 3, 4, 5, 6, 7].map cacheBlob

def noPutEnds : List Action :=
  [.resume true, .treeRead (.units [sevenBlobs]), .resume true] ++ (List.replicate 7 blobSteps).flatten ++
    List.replicate 10 (.resume true)

def crowded : World := noPutEnds.foldl perform (start lastBand freshHandler)

theorem tenInFlight : Reachable (system lastBand freshHandler) crowded ∧ crowded.flying.length = 10 ∧
    ¬crowded.flying.length ≤ kMaxInFlightPuts := by
  have all : AllAllowed (fun w a => True ∧ Allowed w a) perform (start lastBand freshHandler) noPutEnds := by decide
  exact ⟨reachableUnder (reachableAllowed all), by decide, by decide⟩

end Dewfall.UploadWindow
