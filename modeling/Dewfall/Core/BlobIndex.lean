import Dewfall.Core.BlobClaim
import Dewfall.Core.BlobRegister

/-! The serialized free list, and the synchronous allocator block of `write_index`: metadata is
allocated on the live manager, superseded ranges are freed on a copy, and the free list's own range
is claimed in that copy. Writing the blobs and the residency table's contents are not treated. -/
namespace Dewfall.BlobIndex
open General BlobManager BlobFreeSpace BlobRelease BlobRegister BlobClaim

/-! ## serialize -/

def calculateSerializedSize (m : FreeBlobManager) : Nat :=
  m.freeSectionsByPage.entries.foldl (fun size e => u32 (u32 (size + 8) + u32 (16 * e.2.length))) 12

def littleEndian : Nat → Nat → List Nat
  | 0, _ => []
  | width + 1, n => n % 256 :: littleEndian width (n / 256)

-- Behind the size four bytes of padding complete a section.
def serializeSection (s : Section) : List Nat :=
  littleEndian 8 s.offset ++ littleEndian 4 s.size ++ littleEndian 4 0

def serializePage (e : Nat × List Section) : List Nat :=
  littleEndian 4 e.1 ++ littleEndian 4 e.2.length ++ e.2.flatMap serializeSection

def serializePayload (m : FreeBlobManager) : List Nat :=
  littleEndian 8 m.nextOffset ++ littleEndian 4 m.freeSectionsByPage.entries.length ++
    m.freeSectionsByPage.entries.flatMap serializePage

theorem littleEndianLength (width n : Nat) : (littleEndian width n).length = width := by
  induction width generalizing n with
  | zero => rfl
  | succ width ih => rw [littleEndian, List.length_cons, ih]

theorem serializePageLength (e : Nat × List Section) : (serializePage e).length = 8 + 16 * e.2.length := by
  have sections : (e.2.flatMap serializeSection).length = 16 * e.2.length := by
    induction e.2 with
    | nil => rfl
    | cons s rest ih =>
      simp only [List.flatMap_cons, List.length_append, ih, serializeSection, littleEndianLength,
        List.length_cons]
      omega
  simp only [serializePage, List.length_append, littleEndianLength, sections]

theorem serializePayloadLength (m : FreeBlobManager) :
    (serializePayload m).length = 12 + listed m.freeSectionsByPage := by
  simp only [serializePayload, List.length_append, littleEndianLength, listed, DenseMap.total]
  congr 1
  induction m.freeSectionsByPage.entries with
  | nil => rfl
  | cons e rest ih =>
    simp only [List.flatMap_cons, List.length_append, serializePageLength, ih, List.map_cons, List.sum_cons]

theorem calculateFold (entries : List (Nat × List Section)) (size : Nat) :
    entries.foldl (fun size e => u32 (u32 (size + 8) + u32 (16 * e.2.length))) (u32 size) =
      u32 (size + (entries.map fun e => 8 + 16 * e.2.length).sum) := by
  induction entries generalizing size with
  | nil => rfl
  | cons e rest ih =>
    have head : u32 (u32 (u32 size + 8) + u32 (16 * e.2.length)) = u32 (size + (8 + 16 * e.2.length)) := by
      unfold u32
      omega
    rw [List.foldl_cons, head, ih, List.map_cons, List.sum_cons, Nat.add_assoc]

theorem calculateListed (m : FreeBlobManager) :
    calculateSerializedSize m = u32 (12 + listed m.freeSectionsByPage) :=
  calculateFold m.freeSectionsByPage.entries 12

/-! ## The allocator block of write_index -/

structure Checkpoint where
  attributeConfigsSize : Nat
  statsSize : Nat
  perfSize : Nat
  -- With a cache tier the residency table is one more blob.
  residencySize : Option Nat
  deriving DecidableEq, Repr

def payloads (c : Checkpoint) : List Nat :=
  [c.attributeConfigsSize, c.statsSize, c.perfSize] ++ c.residencySize.toList

inductive IndexError where
  | failedToRemoveBlob
  | failedToPlaceFreeList
  | freeListRangeNotFree
  | failedToRetryPlacement
  deriving DecidableEq, Repr

variable (layout : Layout Nat (List Section))

def registerAll (m : FreeBlobManager) : List Nat → FreeBlobManager × List (Nat × Nat)
  | [] => (m, [])
  | size :: rest =>
    let (left, offset) := registerBlob layout m size
    let (last, blobs) := registerAll left rest
    (last, (offset, size) :: blobs)

def unregisterAll (m : FreeBlobManager) : List (Nat × Nat) → Option FreeBlobManager
  | [] => some m
  | (offset, size) :: rest =>
    match unregisterBlob layout m offset size with
    | (_, false) => none
    | (left, true) => unregisterAll left rest

structure Placed where
  live : FreeBlobManager
  snapshot : FreeBlobManager
  list : Nat × Nat

def listSize (snapshot : FreeBlobManager) (attempt : Nat) : Nat :=
  u32 (calculateSerializedSize snapshot + 32 * attempt)

-- One attempt: the list is registered on the live manager and claimed in the copy.
def attemptList (live snapshot : FreeBlobManager) (size : Nat) : Placed × Bool :=
  let (left, offset) := registerBlob layout live size
  let (claimed, done) := claimBlob layout snapshot offset size
  (⟨left, claimed, (offset, size)⟩, done)

-- An error leaves the live manager as it then is.
def placeList : Nat → Nat → FreeBlobManager → FreeBlobManager → Except (IndexError × FreeBlobManager) Placed
  | 0, _, live, _ => .error (.failedToPlaceFreeList, live)
  | turns + 1, attempt, live, snapshot =>
    let placed := attemptList layout live snapshot (listSize snapshot attempt)
    if placed.2 = false then .error (.freeListRangeNotFree, placed.1.live)
    else if calculateSerializedSize placed.1.snapshot ≤ placed.1.list.2 then .ok placed.1
    else
      let copy := unregisterBlob layout placed.1.snapshot placed.1.list.1 placed.1.list.2
      let back := unregisterBlob layout placed.1.live placed.1.list.1 placed.1.list.2
      if copy.2 = false then .error (.failedToRetryPlacement, placed.1.live)
      else if back.2 = false then .error (.failedToRetryPlacement, back.1)
      else placeList turns (attempt + 1) back.1 copy.1

-- The ranges to unregister are the freed blobs and the old metadata.
def writeIndexAllocator (m : FreeBlobManager) (deferredUnregister : List (Nat × Nat)) (c : Checkpoint) :
    Except (IndexError × FreeBlobManager) (List (Nat × Nat) × Placed) :=
  let (live, metadata) := registerAll layout m (payloads c)
  match unregisterAll layout live deferredUnregister with
  | none => .error (.failedToRemoveBlob, live)
  | some snapshot => (placeList layout 5 0 live snapshot).map (metadata, ·)

end Dewfall.BlobIndex
