import Dewfall.Core.BlobIndex
import Dewfall.General.Transition
import Mathlib.Data.List.Perm.Subperm

/-! The packed file over a run: allocations, writes that may stop halfway, checkpoints and crashes.
A byte is known by the blob that wrote it. The superblock is replaced by one write, and a write of it
that reports an error has changed nothing; the cache tier's remote copies are not treated. -/
namespace Dewfall.PackedFile
open General General.Transition BlobManager BlobIndex

structure Blob where
  id : Nat
  offset : Nat
  size : Nat
  deriving DecidableEq, Repr

def Blob.location (b : Blob) : Nat × Nat := (b.offset, b.size)

abbrev File := Nat → Option Nat

def write (f : File) (b : Blob) (count : Nat) : File := fun p =>
  if b.offset ≤ p ∧ p < b.offset + count then some b.id else f p

structure Superblock where
  freeList : Blob
  -- Attribute configs, stats, perf and, with a cache tier, the residency table.
  metadata : List Blob
  treeRegistry : Blob
  -- The trees the registry lists and the data they refer to.
  reachable : List Blob
  -- What the bytes of the free list describe.
  snapshot : FreeBlobManager

def own (sb : Superblock) : List Blob := sb.freeList :: sb.metadata
def references (sb : Superblock) : List Blob := own sb ++ sb.treeRegistry :: sb.reachable

-- The locations a later checkpoint supersedes, in the order it takes them.
def superseded (sb : Superblock) : List Blob :=
  sb.metadata.take 1 ++ sb.freeList :: (sb.metadata.drop 1).take 2 ++ sb.treeRegistry :: sb.metadata.drop 3

-- Those of them that a process reading the index knows: the attribute configs and the free list stay unknown.
def reopened (sb : Superblock) : List Blob := (sb.metadata.drop 1).take 2 ++ sb.treeRegistry :: sb.metadata.drop 3

theorem reopenedSublist (sb : Superblock) : (reopened sb).Sublist (superseded sb) := by
  unfold reopened superseded
  refine List.Sublist.append ?_ (List.Sublist.refl _)
  exact (List.sublist_cons_self _ _).trans (List.sublist_append_right _ _)

structure Flight where
  next : Superblock
  deferred : List Blob
  left : List Blob

structure World where
  manager : FreeBlobManager
  nextId : Nat
  -- Blobs handed out and not given back, and those of them whose write has completed.
  allocated : List Blob
  written : List Blob
  file : File
  superblock : Option Superblock
  old : List Blob
  flight : Option Flight

def serializedIndexSize : Nat := 128
def index : Blob := ⟨0, 0, serializedIndexSize⟩

variable (layout : Layout Nat (List Section))

def start : World where
  manager := (registerBlob layout initial serializedIndexSize).1
  nextId := 1
  allocated := [index]
  written := []
  file _ := none
  superblock := none
  old := []
  flight := none

inductive Action where
  | allocateBlob (size : Nat)
  -- The first `count` bytes of an allocated blob reach the file.
  | writeBlob (blob : Blob) (count : Nat)
  | writeIndex (freed : List Blob) (treeRegistry : Blob) (reachable : List Blob) (checkpoint : Checkpoint)
  | writeMetadata (count : Nat) (ok : Bool)
  | writeSuperblock (ok : Bool)
  | crash
  deriving DecidableEq, Repr

def allocateBlob (w : World) (size : Nat) : World :=
  let (manager, offset) := registerBlob layout w.manager size
  { w with manager := manager, nextId := w.nextId + 1, allocated := ⟨w.nextId, offset, size⟩ :: w.allocated }

def writeBlob (w : World) (blob : Blob) (count : Nat) : World :=
  { w with file := write w.file blob count, written := if count = blob.size then blob :: w.written else w.written }

def named (first : Nat) (locations : List (Nat × Nat)) : List Blob :=
  (locations.zipIdx first).map fun l => ⟨l.2, l.1.1, l.1.2⟩

-- The deferred ranges stay allocated, only the copy has them freed. A freed blob with a remote copy
-- keeps its range for good and is not among `freed`.
def writeIndex (w : World) (freed : List Blob) (treeRegistry : Blob) (reachable : List Blob) (c : Checkpoint) :
    World :=
  let deferred := freed ++ w.old.filter fun b => 0 < b.offset
  match writeIndexAllocator layout w.manager (deferred.map Blob.location) c with
  | .error (_, manager) => { w with manager := manager }
  | .ok (locations, placed) =>
    let metadata := named (w.nextId + 1) locations
    let next : Superblock :=
      ⟨⟨w.nextId, placed.list.1, placed.list.2⟩, metadata, treeRegistry, reachable, placed.snapshot⟩
    { w with
      manager := placed.live
      nextId := w.nextId + 1 + metadata.length
      allocated := own next ++ w.allocated
      flight := some ⟨next, deferred, own next⟩ }

def releaseAll (m : FreeBlobManager) (blobs : List Blob) : FreeBlobManager :=
  blobs.foldl (fun m b => (unregisterBlob layout m b.offset b.size).1) m

-- Metadata first, the free list last; results are ignored.
def rollbackMetadata (w : World) (next : Superblock) : World :=
  { w with
    manager := releaseAll layout w.manager (next.metadata ++ [next.freeList])
    allocated := w.allocated.diff (own next)
    written := w.written.filter fun b => b ∈ w.allocated.diff (own next)
    flight := none }

def writeMetadata (w : World) (f : Flight) (blob : Blob) (left : List Blob) (count : Nat) (ok : Bool) : World :=
  let after := writeBlob w blob count
  if ok then { after with flight := some { f with left := left } } else rollbackMetadata layout after f.next

-- Gives the ranges back in order and stops at the first that is refused.
def returnAll (m : FreeBlobManager) : List Blob → FreeBlobManager × List Blob
  | [] => (m, [])
  | blob :: rest =>
    match unregisterBlob layout m blob.offset blob.size with
    | (left, false) => (left, blob :: rest)
    | (left, true) => returnAll left rest

def writeSuperblock (w : World) (f : Flight) (ok : Bool) : World :=
  if ok then
    let (manager, refused) := returnAll layout w.manager f.deferred
    let allocated := w.allocated.diff (f.deferred.take (f.deferred.length - refused.length))
    { w with
      manager := manager
      allocated := allocated
      written := w.written.filter fun b => b ∈ allocated
      superblock := some f.next
      old := if refused = [] then superseded f.next else w.old
      flight := none }
  else rollbackMetadata layout w f.next

-- What a process that opens the file again starts with.
def crash (w : World) : World :=
  match w.superblock with
  | none => { start layout with file := w.file }
  | some sb =>
    { w with
      manager := sb.snapshot
      allocated := index :: references sb
      written := references sb
      old := reopened sb
      flight := none }

def perform (w : World) : Action → World
  | .allocateBlob size => allocateBlob layout w size
  | .writeBlob blob count => writeBlob w blob count
  | .writeIndex freed treeRegistry reachable c => writeIndex layout w freed treeRegistry reachable c
  | .writeMetadata count ok =>
    match w.flight with
    | some ⟨next, deferred, blob :: left⟩ => writeMetadata layout w ⟨next, deferred, blob :: left⟩ blob left count ok
    | _ => w
  | .writeSuperblock ok =>
    match w.flight with
    | some ⟨next, deferred, []⟩ => writeSuperblock layout w ⟨next, deferred, []⟩ ok
    | _ => w
  | .crash => crash layout w

-- The metadata the superblock leads to and its registry.
def owned (w : World) : List Blob := (w.superblock.map superseded).getD []

-- A caller frees live blobs, each once, that the registry it hands over no longer leads to; what the
-- registry leads to has been written, and none of it is the backend's own metadata.
structure Handed (w : World) (freed : List Blob) (treeRegistry : Blob) (reachable : List Blob) (c : Checkpoint) :
    Prop where
  distinct : (freed ++ treeRegistry :: reachable).Subperm (w.allocated.diff (index :: owned w))
  written : ∀ b ∈ treeRegistry :: reachable, b ∈ w.written
  words : ∀ size ∈ payloads c, size < 2 ^ 32

instance (w freed treeRegistry reachable c) : Decidable (Handed w freed treeRegistry reachable c) :=
  decidable_of_iff ((freed ++ treeRegistry :: reachable).Subperm (w.allocated.diff (index :: owned w)) ∧
      (∀ b ∈ treeRegistry :: reachable, b ∈ w.written) ∧ ∀ size ∈ payloads c, size < 2 ^ 32)
    ⟨fun ⟨distinct, written, words⟩ => ⟨distinct, written, words⟩,
      fun handed => ⟨handed.distinct, handed.written, handed.words⟩⟩

def Allowed (w : World) : Action → Prop
  | .allocateBlob size => 0 < size ∧ size < 2 ^ 32
  | .writeBlob blob count => blob ∈ w.allocated ∧ count ≤ blob.size
  | .writeIndex freed treeRegistry reachable c => w.flight.isNone ∧ Handed w freed treeRegistry reachable c
  | .writeMetadata count ok => ∀ f ∈ w.flight, ∀ blob ∈ f.left.head?, count ≤ blob.size ∧ (ok = true → count = blob.size)
  | .writeSuperblock _ => True
  | .crash => True

instance (w a) : Decidable (Allowed w a) := by
  cases a <;> dsimp only [Allowed] <;> infer_instance

def system : System World Action := System.ofFunction (start layout) Allowed (perform layout)

end Dewfall.PackedFile
