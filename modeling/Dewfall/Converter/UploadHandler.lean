import Dewfall.General.Transition
import Mathlib.Data.List.Infix

/-! Bands on their way to the root manifest. A band is enqueued on any thread, delivered to the
uploader loop, processed in three awaited stages and committed by the root manifest put. Object
contents, the dedup map and retries are not modelled: a stage succeeds or parks the handler. -/
namespace Dewfall.UploadHandler
open General.Transition

inductive Stage where | dataObjects | bandManifest | rootManifest
  deriving DecidableEq, Repr

inductive Bootstrap where
  | asking | claiming | reading | bands (left : Nat) | done | failed
  deriving DecidableEq, Repr

structure Handler where
  bandCount : Nat
  bootstrapBandCount : Nat
  bandsCommitted : Nat
  enqueuedBands : Nat
  statsParked : Bool
  parked : Bool
  bandInFlight : Bool
  processing : Option (Nat × Stage)
  queued : List Nat
  bandPipe : List Nat
  deriving DecidableEq, Repr

structure World where
  handler : Handler
  bootstrap : Bootstrap
  root : Option Nat
  committed : List Nat
  deriving DecidableEq, Repr

def Handler.fresh : Handler := ⟨0, 0, 0, 0, false, false, false, none, [], []⟩

def start (root : Option Nat) : World := ⟨.fresh, .asking, root, []⟩

def drained (h : Handler) : Bool :=
  h.statsParked || decide (h.enqueuedBands + h.bootstrapBandCount ≤ h.bandsCommitted)

def handleBand (h : Handler) (band : Nat) : Handler :=
  let h := { h with queued := h.queued ++ [band] }
  if h.bandInFlight || h.parked then h
  else match h.queued with
    | [] => h
    | next :: rest =>
      { h with bandInFlight := true, queued := rest, processing := some (next, .dataObjects) }

-- The detached coroutine after `process_band` has returned.
def afterBand (h : Handler) : Handler :=
  let h := { h with bandInFlight := false, processing := none }
  if h.parked then h
  else match h.queued with
    | [] => h
    | following :: rest => handleBand { h with queued := rest } following

def park (h : Handler) : Handler := afterBand { h with parked := true, statsParked := true }

def commit (w : World) (band : Nat) : World :=
  let h := { w.handler with bandCount := band + 1, bandsCommitted := band + 1 }
  { w with handler := afterBand h, root := some (band + 1), committed := w.committed ++ [band] }

def advanceBand (w : World) (ok : Bool) : World :=
  match w.handler.processing with
  | none => w
  | some (band, stage) =>
    if ok then match stage with
      | .dataObjects => { w with handler.processing := some (band, .bandManifest) }
      | .bandManifest => { w with handler.processing := some (band, .rootManifest) }
      | .rootManifest => commit w band
    else { w with handler := park w.handler }

-- The bootstrap reads one band manifest at a time; `left` more follow the one being read.
def readBands (w : World) : Nat → World
  | 0 => { w with bootstrap := .done, handler.bandsCommitted := w.handler.bandCount }
  | left + 1 => { w with bootstrap := .bands left }

def advanceBootstrap (w : World) (ok : Bool) : World :=
  if ok then match w.bootstrap with
    | .asking => { w with bootstrap := if w.root = none then .claiming else .reading }
    | .claiming => { w with bootstrap := .done, root := some 0 }
    | .reading => match w.root with
      | none => { w with bootstrap := .failed }
      | some count => readBands
        { w with handler.bandCount := count, handler.bootstrapBandCount := count } count
    | .bands left => readBands w left
    | .done | .failed => w
  else { w with bootstrap := .failed }

inductive Action where
  | bootstrapStep (ok : Bool)
  | enqueueBand
  | deliver
  | bandStep (ok : Bool)
  deriving DecidableEq, Repr

-- Ids are consecutive from `first`, the band count the bucket was left with.
def perform (first : Nat) (w : World) : Action → World
  | .bootstrapStep ok => advanceBootstrap w ok
  | .enqueueBand => { w with
      handler.enqueuedBands := w.handler.enqueuedBands + 1
      handler.bandPipe := w.handler.bandPipe ++ [first + w.handler.enqueuedBands] }
  | .deliver => match w.handler.bandPipe with
    | [] => w
    | band :: rest => { w with handler := handleBand { w.handler with bandPipe := rest } band }
  | .bandStep ok => advanceBand w ok

def Allowed (w : World) : Action → Prop
  | .bootstrapStep _ => w.bootstrap ≠ .done ∧ w.bootstrap ≠ .failed
  | .enqueueBand => True
  | .deliver => w.handler.bandPipe ≠ []
  | .bandStep _ => w.handler.processing ≠ none

instance (w a) : Decidable (Allowed w a) := by
  cases a <;> dsimp only [Allowed] <;> infer_instance

def system (root : Option Nat) : System World Action :=
  System.ofFunction (start root) Allowed (perform (root.getD 0))

end Dewfall.UploadHandler
