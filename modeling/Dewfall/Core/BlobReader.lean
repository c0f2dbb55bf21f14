import Dewfall.General.ByteFile
import Mathlib.Logic.Function.Basic

/-! Reads, writes and frees of blobs in the packed file, with the two read caches. Reads and writes
move bytes little by little; eviction is arbitrary, and so is decompression, which is a parameter.
The cache tier, input and output errors and read statistics are left out. -/
namespace Dewfall.BlobReader
open General.ByteFile

-- The file id is zero for every blob of the packed file.
structure Location where
  size : Nat
  offset : Nat
  deriving DecidableEq, Repr

inductive Kind where
  | data
  | tree
  | registry
  deriving DecidableEq, Repr

inductive Phase where
  | allocated
  | writing (written : Nat)
  | stored
  deriving DecidableEq, Repr

structure Blob where
  offset : Nat
  bytes : List UInt8
  kind : Kind
  phase : Phase
  deriving DecidableEq, Repr

-- `wanted` is the blob stored at the location when the read was issued.
structure ReadRequest where
  location : Location
  raw : Bool
  got : List UInt8
  wanted : Option Nat
  deriving DecidableEq, Repr

-- A cache hit that is decompressed by the caller (`keep`) or by the pool.
structure Decompression where
  offset : Nat
  data : List UInt8
  keep : Bool
  wanted : Option Nat
  deriving DecidableEq, Repr

-- `stored` are the bytes of the wanted blob, if it is still there.
structure Answer where
  stored : Option (List UInt8)
  raw : Bool
  result : Option (List UInt8)
  deriving DecidableEq, Repr

structure World where
  file : File
  blobs : Nat → Option Blob
  nextBlob : Nat
  readCache : Nat → Option (List UInt8)
  decompressedCache : Nat → Option (List UInt8)
  reads : Nat → Option ReadRequest
  nextRead : Nat
  decompressions : Nat → Option Decompression
  nextDecompression : Nat
  -- The offsets that a read has put in a cache since a write of data last began there.
  filled : List Nat
  answers : List Answer

def start : World :=
  ⟨fun _ => 0, fun _ => none, 0, fun _ => none, fun _ => none, fun _ => none, 0, fun _ => none, 0, [], []⟩

structure Codec where
  hasCompressionMagic : List UInt8 → Bool
  decompressAny : List UInt8 → Option (List UInt8)

variable (codec : Codec)

def deliver (raw : Bool) (bytes : List UInt8) : Option (List UInt8) :=
  if raw then some bytes
  else if codec.hasCompressionMagic bytes then codec.decompressAny bytes
  else some bytes

def stillStored (w : World) (wanted : Option Nat) : Option (List UInt8) :=
  match wanted.bind w.blobs with
  | none => none
  | some blob => if blob.phase = .stored then some blob.bytes else none

def storedAt (w : World) (location : Location) : Option Nat :=
  (List.range w.nextBlob).find? fun id => ∃ blob ∈ w.blobs id,
    blob.phase = .stored ∧ blob.offset = location.offset ∧ blob.bytes.length = location.size

def answer (w : World) (wanted : Option Nat) (raw : Bool) (result : Option (List UInt8)) : World :=
  { w with answers := w.answers ++ [⟨stillStored w wanted, raw, result⟩] }

/-! ## Writes and frees -/

def allocate (w : World) (kind : Kind) (offset : Nat) (bytes : List UInt8) : World :=
  { w with
    blobs := Function.update w.blobs w.nextBlob (some ⟨offset, bytes, kind, .allocated⟩)
    nextBlob := w.nextBlob + 1 }

def invalidate (w : World) (offset : Nat) : World :=
  { w with
    readCache := Function.update w.readCache offset none
    decompressedCache := Function.update w.decompressedCache offset none
    filled := w.filled.filter (· ≠ offset) }

def setPhase (w : World) (id : Nat) (phase : Phase) : World :=
  match w.blobs id with
  | none => w
  | some blob => { w with blobs := Function.update w.blobs id (some { blob with phase := phase }) }

-- `do_write` invalidates before it writes; the tree and registry writes do not.
def beginWrite (w : World) (id : Nat) : World :=
  match w.blobs id with
  | none => w
  | some blob =>
    if blob.kind = .data then setPhase (invalidate w blob.offset) id (.writing 0)
    else setPhase w id (.writing 0)

def writeMore (w : World) (id count : Nat) : World :=
  match w.blobs id with
  | some ⟨offset, bytes, _, .writing written⟩ =>
    setPhase { w with
      file := overlay w.file (offset + written) ((bytes.drop written).take count) } id
      (.writing (written + count))
  | _ => w

def free (w : World) (id : Nat) : World := { w with blobs := Function.update w.blobs id none }

/-! ## Reads -/

def read (w : World) (location : Location) (raw decompressInline : Bool) : World :=
  let wanted := storedAt w location
  match if decompressInline && !raw then w.decompressedCache location.offset else none with
  | some data => answer w wanted raw (some data)
  | none =>
    match w.readCache location.offset with
    | some data =>
      if !raw && codec.hasCompressionMagic data then { w with
        decompressions := Function.update w.decompressions w.nextDecompression
          (some ⟨location.offset, data, decompressInline, wanted⟩)
        nextDecompression := w.nextDecompression + 1 }
      else answer w wanted raw (some data)
    | none => { w with
        reads := Function.update w.reads w.nextRead (some ⟨location, raw, [], wanted⟩)
        nextRead := w.nextRead + 1 }

def readMore (w : World) (id count : Nat) : World :=
  match w.reads id with
  | none => w
  | some r =>
    let bytes := slice w.file (r.location.offset + r.got.length) count
    { w with reads := Function.update w.reads id (some { r with got := r.got ++ bytes }) }

def completeRead (w : World) (id : Nat) (cancelled : Bool) : World :=
  match w.reads id with
  | none => w
  | some r =>
    let cached := { w with
      reads := Function.update w.reads id none
      readCache := Function.update w.readCache r.location.offset (some r.got)
      filled := r.location.offset :: w.filled }
    if cancelled then cached else answer cached r.wanted r.raw (deliver codec r.raw r.got)

def finishDecompression (w : World) (id : Nat) : World :=
  match w.decompressions id with
  | none => w
  | some d =>
    let finished := { w with decompressions := Function.update w.decompressions id none }
    match codec.decompressAny d.data with
    | none => answer finished d.wanted false none
    | some plain =>
      answer (if d.keep then { finished with
          decompressedCache := Function.update w.decompressedCache d.offset (some plain)
          filled := d.offset :: w.filled }
        else finished) d.wanted false (some plain)

/-! ## Steps -/

inductive Action where
  | allocate (kind : Kind) (offset : Nat) (bytes : List UInt8)
  | beginWrite (id : Nat)
  | writeMore (id count : Nat)
  | finishWrite (id : Nat)
  | free (id : Nat)
  | read (location : Location) (raw decompressInline : Bool)
  | readMore (id count : Nat)
  | completeRead (id : Nat) (cancelled : Bool)
  | finishDecompression (id : Nat)
  | evict (offset : Nat) (decompressed : Bool)
  deriving DecidableEq, Repr

def evict (w : World) (offset : Nat) (decompressed : Bool) : World :=
  if decompressed then
    { w with decompressedCache := Function.update w.decompressedCache offset none }
  else { w with readCache := Function.update w.readCache offset none }

def perform (w : World) : Action → World
  | .allocate kind offset bytes => allocate w kind offset bytes
  | .beginWrite id => beginWrite w id
  | .writeMore id count => writeMore w id count
  | .finishWrite id => setPhase w id .stored
  | .free id => free w id
  | .read location raw decompressInline => read codec w location raw decompressInline
  | .readMore id count => readMore w id count
  | .completeRead id cancelled => completeRead codec w id cancelled
  | .finishDecompression id => finishDecompression codec w id
  | .evict offset decompressed => evict w offset decompressed

def Blob.remaining (blob : Blob) : Option Nat :=
  match blob.phase with
  | .writing written => some (blob.bytes.length - written)
  | _ => none

def Allowed (w : World) : Action → Prop
  | .allocate _ _ bytes => bytes ≠ []
  | .beginWrite id => ∃ blob ∈ w.blobs id, blob.phase = .allocated
  | .writeMore id count => ∃ blob ∈ w.blobs id, ∃ left ∈ blob.remaining, count ≤ left
  | .finishWrite id => ∃ blob ∈ w.blobs id, blob.remaining = some 0
  | .free id => ∃ blob ∈ w.blobs id, blob.phase = .stored
  | .read _ _ _ | .evict _ _ => True
  | .readMore id count => ∃ r ∈ w.reads id, r.got.length + count ≤ r.location.size
  | .completeRead id _ => ∃ r ∈ w.reads id, r.got.length = r.location.size
  | .finishDecompression id => (w.decompressions id).isSome

instance (w a) : Decidable (Allowed w a) := by
  cases a <;> dsimp only [Allowed] <;> infer_instance

end Dewfall.BlobReader
