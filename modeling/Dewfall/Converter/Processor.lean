import Mathlib.Data.BitVec
import Dewfall.Converter.InputRegistry

/-! The processor's side of a conversion: new-file batches and their pre-init answers, dispatch
under the read budget, and when a LOD pass starts and ends. The handlers run one at a time on the
processor's loop. Scale adoption, error callbacks, statistics and shutdown are left out; so is the
tree handler, whose committed watermark is what an index-write-done event carries. -/
namespace Dewfall.Processor
open General InputRegistry

structure World where
  registry : Registry
  newFileEventsSent : Nat
  filesAdded : List (List Name)
  -- The files of each batch whose pre-init has been scheduled.
  batches : List (List Nat)
  readSortActive : BitVec 64
  generatingLod : Bool
  lodDoneMorton : Nat
  currentLodTargetMorton : Nat
  idle : Bool
  isMutable : Bool

def start : World := ⟨empty, 0, [], [], 0, false, 0, 0, true, false⟩

def readSortBudget : BitVec 64 := 2 ^ 30

-- What came back for one file of a batch; `unanswered` is a result that carries no file id.
inductive Answer where
  | success (order : Option Nat) (pointCount pointSizeBytes : Nat)
  | failure
  | unanswered
  deriving DecidableEq, Repr

def maybeStartLod (w : World) : World :=
  if w.generatingLod then w
  else
    let asked := getDoneMorton w.registry
    match asked.2 with
    | none => { w with registry := asked.1 }
    | some doneMorton =>
      if w.lodDoneMorton < doneMorton then { w with
        registry := asked.1
        generatingLod := true
        currentLodTargetMorton := doneMorton }
      else { w with registry := asked.1 }

def addFiles (w : World) (names : List Name) : World :=
  { w with
    idle := false
    newFileEventsSent := w.newFileEventsSent + 1
    filesAdded := w.filesAdded ++ [names] }

/-! ## New files -/

variable (layout : Layout Nat Item)

-- Registers the files in turn and keeps those that were not already done.
def registerFiles (r : Registry) : List Name → Registry × List Nat
  | [] => (r, [])
  | name :: rest =>
    let (registered, id, alreadyDone) := registerFile layout r name
    let (r, ids) := registerFiles registered rest
    (r, if alreadyDone then ids else id :: ids)

def handleNewFiles (w : World) : World :=
  match w.filesAdded with
  | [] => w
  | names :: later =>
    let registered := registerFiles layout w.registry names
    { w with
      registry := registered.1
      filesAdded := later
      newFileEventsSent := w.newFileEventsSent - 1
      batches := w.batches ++ [registered.2] }

def applyAnswer (r : Registry) : Nat × Answer → Registry
  | (id, .success order count size) => registerPreInitResult r id order count size
  | (id, .failure) => handleFileFailed r id
  | (_, .unanswered) => r

def settledIds (results : List (Nat × Answer)) : List Nat :=
  (results.filter fun result => result.2 ≠ .unanswered).map Prod.fst

def floorStep (floor : Option Nat) : Answer → Option Nat
  | .success order _ _ =>
    match floor with
    | none => some (order.getD 0)
    | some low => if order.getD 0 < low then some (order.getD 0) else some low
  | _ => floor

def batchFloor (results : List (Nat × Answer)) : Option Nat :=
  results.foldl (fun floor result => floorStep floor result.2) none

def loweredDone (w : World) (results : List (Nat × Answer)) : Nat :=
  if w.isMutable then
    match batchFloor results with
    | none => w.lodDoneMorton
    | some floor => if floor < w.lodDoneMorton then floor else w.lodDoneMorton
  else w.lodDoneMorton

def sweepUnsettled (r : Registry) (refs settled : List Nat) : Registry :=
  refs.foldl (fun r id => if id ∈ settled then r else handleFileFailed r id) r

def retiredAny (refs settled : List Nat) : Bool := refs.any fun id => id ∉ settled

-- The end of `do_handle_new_files`: `refs` is one batch, `answers` what its pre-inits returned.
def settle (w : World) (refs : List Nat) (answers : List Answer) : World :=
  let results := refs.zip answers
  let settled := settledIds results
  let swept := { w with
    registry := sweepUnsettled (results.foldl applyAnswer w.registry) refs settled
    lodDoneMorton := loweredDone w results }
  if retiredAny refs settled && settled.isEmpty then maybeStartLod swept else swept

def handlePreInitDone (w : World) (batch : Nat) (answers : List Answer) : World :=
  match w.batches[batch]? with
  | none => w
  | some refs => settle { w with batches := w.batches.eraseIdx batch } refs answers

/-! ## Reading and inserting -/

def handleFileReadingDone (w : World) (id : Nat) : World :=
  maybeStartLod { w with
    readSortActive := w.readSortActive - BitVec.ofNat 64 (getApproximateSize w.registry id)
    registry := handleReadingDone w.registry id }

def handleTreeDone (w : World) (id : Nat) : World :=
  maybeStartLod { w with registry := handleTreeDoneWithInput w.registry id }

def handleIndexWriteDone (w : World) (committed : Nat) : World :=
  if w.generatingLod && committed < w.currentLodTargetMorton then w
  else maybeStartLod { w with
    lodDoneMorton := w.currentLodTargetMorton
    generatingLod := false }

/-! ## about_to_block -/

def budgetLeft (w : World) : Bool := (0 : BitVec 64).slt (readSortBudget - w.readSortActive)

def dispatch (w : World) (id : Nat) : World :=
  { w with
    registry := nextInputToProcess w.registry id
    readSortActive := w.readSortActive + BitVec.ofNat 64 (getApproximateSize w.registry id) }

-- The dispatch loop, with the files that the heap yields given; `none` when they are not the ones.
def dispatchInputs (w : World) : List Nat → Option World
  | [] =>
    if budgetLeft w then
      if (rebuildUnsorted w.registry).unsortedInputSources = [] then
        some { w with registry := rebuildUnsorted w.registry }
      else none
    else some w
  | id :: rest => if budgetLeft w ∧ Next w.registry id then dispatchInputs (dispatch w id) rest else none

def settlesIdle (w : World) : Bool :=
  allInsertedIntoTree w.registry && w.newFileEventsSent = 0 && !w.generatingLod

def aboutToBlock (w : World) (picked : List Nat) : Option World :=
  (dispatchInputs w picked).map fun w => if settlesIdle w then { w with idle := true } else w

/-! ## Events -/

inductive Action where
  | addFiles (names : List Name)
  | handleNewFiles
  | preInitDone (batch : Nat) (answers : List Answer)
  | subAdded (id : Nat)
  | sorted (id min max : Nat)
  | readingDone (id : Nat)
  | treeDone (id : Nat)
  | indexWriteDone (committed : Nat)
  | setMutable (value : Bool)
  | aboutToBlock (picked : List Nat)
  deriving DecidableEq, Repr

def perform (w : World) : Action → World
  | .addFiles names => addFiles w names
  | .handleNewFiles => handleNewFiles layout w
  | .preInitDone batch answers => handlePreInitDone w batch answers
  | .subAdded id => { w with registry := handleSubAdded w.registry id }
  | .sorted id min max => { w with registry := handleSortedPoints w.registry id min max }
  | .readingDone id => handleFileReadingDone w id
  | .treeDone id => handleTreeDone w id
  | .indexWriteDone committed => handleIndexWriteDone w committed
  | .setMutable value => { w with isMutable := value }
  | .aboutToBlock picked => (aboutToBlock w picked).getD w

-- Readers, the sorter and the tree report on registered files only, and a reader runs only for a
-- dispatched file.
def Allowed (w : World) : Action → Prop
  | .addFiles _ | .indexWriteDone _ | .setMutable _ => True
  | .handleNewFiles => w.filesAdded ≠ []
  | .preInitDone batch answers => ∃ refs ∈ w.batches[batch]?, refs.length = answers.length
  | .subAdded id | .sorted id _ _ | .treeDone id => (w.registry.items.find id).isSome
  | .readingDone id => id ∈ w.registry.sortedInputSources
  | .aboutToBlock picked => (aboutToBlock w picked).isSome

instance (w a) : Decidable (Allowed w a) := by
  cases a <;> dsimp only [Allowed] <;> infer_instance

end Dewfall.Processor
