import Dewfall.Core.PackedFileRuns
import Dewfall.Core.SpillStore

/-! `write_index` as one call among others: what it has changed by the time it returns an error, and what a
call after it does. The call may fail in the spill flush, in the allocator block or at any write. A residency
table too large for its own size field is left out. -/
namespace Dewfall.CheckpointRollback
open General General.Transition BlobManager BlobFreeSpace BlobRegister BlobIndex PackedFile
open BlobResidency (Residency)
open SpillStore (Store)
open PackedFileRuns (RollbackSound places)
open BlobIndexRuns (freedBytes freedCons)
open BlobRelease (pageLimit)

/-! ## The cache tier's other work -/

inductive CacheOp where
  | noteBlobUploaded (offset size remoteId : Nat)
  | appendBlob (data : List UInt8)
  | flushed
  -- A spilled blob is recorded, or dropped where an upload came first.
  | recordSpilled (offset size remoteId : Nat)
  | recordDiverted (offset size remoteId : Nat)
  -- A charged blob that found the disk full.
  | recordNoSpace (offset size remoteId : Nat)
  | evict (offset : Nat)
  | dropSpilledLocal (offset : Nat)
  | touch (offset : Nat)
  | beginLocalRead (offset : Nat)
  | endLocalRead (offset : Nat)
  | startSweep
  | endSweep
  | setCap (cap : Nat)
  deriving DecidableEq, Repr

structure Tier where
  residency : Residency
  store : Store

variable (entries : Layout Nat BlobResidency.Entry)

def flushSegment (s : Store) : Store := if s.openBuffer = [] then s else SpillStore.flushed s

def noteBlobUploaded (t : Tier) (offset size remoteId : Nat) : Tier :=
  let (residency, spilled) := BlobResidency.markUploaded entries t.residency offset size remoteId
  ⟨residency, if spilled = 0 then t.store else SpillStore.deref t.store spilled⟩

def recordSpilled (t : Tier) (offset size remoteId : Nat) : Tier :=
  if (BlobResidency.find t.residency offset).isSome then { t with store := SpillStore.deref t.store remoteId }
  else { t with residency := BlobResidency.markSpilled entries t.residency offset size remoteId }

def applyCache (t : Tier) : CacheOp → Tier
  | .noteBlobUploaded offset size remoteId => noteBlobUploaded entries t offset size remoteId
  | .appendBlob data => { t with store := (SpillStore.appendBlob (SpillStore.openSegment t.store) data).1 }
  | .flushed => { t with store := flushSegment t.store }
  | .recordSpilled offset size remoteId => recordSpilled entries t offset size remoteId
  | .recordDiverted offset size remoteId =>
    { t with residency := BlobResidency.markSpilledRemote entries t.residency offset size remoteId }
  | .recordNoSpace offset size remoteId =>
    let diverted := BlobResidency.markSpilledRemote entries t.residency offset size remoteId
    { t with residency := BlobResidency.accountFreed diverted size }
  | .evict offset => { t with residency := (BlobResidency.evict t.residency offset).getD t.residency }
  | .dropSpilledLocal offset =>
    { t with residency := (BlobResidency.dropSpilledLocal t.residency offset).getD t.residency }
  | .touch offset => { t with residency := BlobResidency.touch t.residency offset }
  | .beginLocalRead offset => { t with residency := BlobResidency.beginLocalRead t.residency offset }
  | .endLocalRead offset => { t with residency := BlobResidency.endLocalRead t.residency offset }
  | .startSweep => { t with store := SpillStore.startSweep t.store }
  | .endSweep => { t with store := SpillStore.endSweep t.store }
  | .setCap cap => { t with residency := { t.residency with cap := cap } }

/-! ## The call -/

structure Handover where
  freed : List Blob
  treeRegistry : Blob
  reachable : List Blob
  checkpoint : Checkpoint
  deriving DecidableEq, Repr

-- The state at the call, and what everyone else has done to it since.
structure Expected where
  manager : FreeBlobManager
  taken : List (Nat × Nat)
  tier : Tier
  pending : List Blob
  old : List Blob
  freed : List Blob
  cleanShutdown : Bool

structure World where
  file : PackedFile.World
  tier : Tier
  -- Blobs the trees no longer refer to, for the next checkpoint to free.
  pending : List Blob
  flushing : Option Handover
  generation : Nat
  -- The next checkpoint is the orderly one; whether the one under way took the mark.
  cleanShutdown : Bool
  cleanSnapshot : Bool
  expected : Option Expected
  -- The call whose error was returned by the last step.
  failed : Option Expected

inductive Action where
  | allocateBlob (size : Nat) (data : Bool)
  | writeBlob (blob : Blob) (count : Nat)
  | discard (blob : Blob)
  | cache (op : CacheOp)
  | setCleanShutdownNextCheckpoint
  | writeIndex (treeRegistry : Blob) (reachable : List Blob) (checkpoint : Checkpoint)
  | flush (ok : Bool)
  | writeMetadata (count : Nat) (ok : Bool)
  | writeSuperblock (ok : Bool)
  deriving DecidableEq, Repr

variable (layout : Layout Nat (List Section))

def start : World where
  file := PackedFile.start layout
  tier := ⟨BlobResidency.empty, SpillStore.fresh⟩
  pending := []
  flushing := none
  generation := 0
  cleanShutdown := false
  cleanSnapshot := false
  expected := none
  failed := none

def charge (t : Tier) (bytes : Nat) : Tier := { t with residency := BlobResidency.accountAlloc t.residency bytes }
def refund (t : Tier) (bytes : Nat) : Tier := { t with residency := BlobResidency.accountFreed t.residency bytes }

-- Data over the hard cap is to be diverted, and takes no local bytes.
def localBytes (w : World) (size : Nat) (data : Bool) : Nat :=
  if data && BlobResidency.overHard w.tier.residency size then 0 else size

def allocateBlob (w : World) (size : Nat) (data : Bool) : World :=
  let offset := (registerBlob layout w.file.manager size).2
  let bytes := localBytes w size data
  { w with
    file := PackedFile.allocateBlob layout w.file size
    tier := charge w.tier bytes
    expected := w.expected.map fun e => { e with taken := (offset, size) :: e.taken, tier := charge e.tier bytes }
    failed := none }

def writeBlob (w : World) (blob : Blob) (count : Nat) : World :=
  { w with file := PackedFile.writeBlob w.file blob count, failed := none }

def discard (w : World) (blob : Blob) : World :=
  { w with
    pending := w.pending ++ [blob]
    expected := w.expected.map fun e => { e with pending := e.pending ++ [blob] }
    failed := none }

def cache (w : World) (op : CacheOp) : World :=
  { w with
    tier := applyCache entries w.tier op
    expected := w.expected.map fun e => { e with tier := applyCache entries e.tier op }
    failed := none }

def setCleanShutdownNextCheckpoint (w : World) : World :=
  { w with
    cleanShutdown := true
    expected := w.expected.map fun e => { e with cleanShutdown := true }
    failed := none }

-- The pending list is moved into the call.
def writeIndex (w : World) (treeRegistry : Blob) (reachable : List Blob) (c : Checkpoint) : World :=
  { w with
    pending := []
    flushing := some ⟨w.pending, treeRegistry, reachable, c⟩
    expected := some ⟨w.file.manager, [], w.tier, w.pending, w.file.old, w.pending, w.cleanShutdown⟩
    failed := none }

def fail (w : World) : World := { w with flushing := none, expected := none, failed := w.expected }

-- A blob with a remote copy loses its entry and its spill reference and keeps its range for good;
-- the others are left to be unregistered.
def forgetFreed (t : Tier) : List Blob → Tier × List Blob
  | [] => (t, [])
  | b :: rest =>
    match BlobResidency.forget entries t.residency b.offset with
    | none => ((forgetFreed t rest).1, b :: (forgetFreed t rest).2)
    | some (residency, f) =>
      forgetFreed ⟨residency, if f.spilled then SpillStore.deref t.store f.remoteId else t.store⟩ rest

def sizes (blobs : List Blob) : Nat := (blobs.map Blob.size).sum

def allocatorBlock (w : World) (h : Handover) : World :=
  let (forgotten, deferred) := forgetFreed entries w.tier h.freed
  let (residency, generation) := BlobResidency.serializeGeneration forgotten.residency
  let after := { w with
    file := PackedFile.writeIndex layout w.file deferred h.treeRegistry h.reachable h.checkpoint
    tier := { forgotten with residency := residency }
    flushing := none
    generation := generation
    cleanShutdown := false
    cleanSnapshot := w.cleanShutdown
    failed := none }
  match after.file.flight with
  | none => fail after
  | some f => { after with tier := charge after.tier (sizes (own f.next)) }

-- The segment the flush has put stays put.
def flush (w : World) (h : Handover) (ok : Bool) : World :=
  if ok then allocatorBlock entries layout (cache entries w .flushed) h else fail w

def writeMetadata (w : World) (f : Flight) (blob : Blob) (left : List Blob) (count : Nat) (ok : Bool) : World :=
  let after := { w with file := PackedFile.writeMetadata layout w.file f blob left count ok, failed := none }
  if ok then after else fail { after with tier := refund w.tier (sizes (own f.next)) }

def commitDurable (w : World) (f : Flight) : Tier :=
  refund { w.tier with residency := BlobResidency.commitDurable w.tier.residency w.generation } (sizes f.deferred)

def writeSuperblock (w : World) (f : Flight) (ok : Bool) : World :=
  let after := { w with file := PackedFile.writeSuperblock layout w.file f ok, failed := none }
  if ok then
    if (returnAll layout w.file.manager f.deferred).2 = [] then
      { after with tier := commitDurable w f, expected := none }
    else fail after
  else fail { after with tier := refund w.tier (sizes (own f.next)) }

def perform (w : World) : Action → World
  | .allocateBlob size data => allocateBlob layout w size data
  | .writeBlob blob count => writeBlob w blob count
  | .discard blob => discard w blob
  | .cache op => cache entries w op
  | .setCleanShutdownNextCheckpoint => setCleanShutdownNextCheckpoint w
  | .writeIndex treeRegistry reachable c => writeIndex w treeRegistry reachable c
  | .flush ok =>
    match w.flushing with
    | some h => flush entries layout w h ok
    | none => { w with failed := none }
  | .writeMetadata count ok =>
    match w.file.flight with
    | some ⟨next, deferred, blob :: left⟩ => writeMetadata layout w ⟨next, deferred, blob :: left⟩ blob left count ok
    | _ => { w with failed := none }
  | .writeSuperblock ok =>
    match w.file.flight with
    | some ⟨next, deferred, []⟩ => writeSuperblock layout w ⟨next, deferred, []⟩ ok
    | _ => { w with failed := none }

def Allowed (w : World) : Action → Prop
  | .allocateBlob size _ => 0 < size ∧ size < 2 ^ 32
  | .writeBlob blob count => blob ∈ w.file.allocated ∧ count ≤ blob.size
  | .discard _ | .cache _ | .setCleanShutdownNextCheckpoint | .writeSuperblock _ => True
  | .writeIndex _ _ _ => w.flushing.isNone ∧ w.file.flight.isNone
  | .flush ok => ok = true → ∀ h ∈ w.flushing, Handed w.file h.freed h.treeRegistry h.reachable h.checkpoint
  | .writeMetadata count ok => PackedFile.Allowed w.file (.writeMetadata count ok)

instance (w a) : Decidable (Allowed w a) := by
  cases a <;> dsimp only [Allowed] <;> infer_instance

def system : System World Action := System.ofFunction (start layout) Allowed (perform entries layout)

/-! ## The condition -/

def handedFreed (w : World) : List Blob := (w.expected.map Expected.freed).getD []

-- The ranges that are to be freed once the superblock is written.
def deferred (w : World) (h : Handover) : List Blob :=
  (forgetFreed entries w.tier h.freed).2 ++ w.file.old.filter fun b => 0 < b.offset

-- The bytes charged for the metadata of the call under way.
def inFlightBytes (w : World) : Nat := (w.file.flight.map fun f => sizes (own f.next)).getD 0

def reclaimedFrom (state : BlobResidency.State) (e : BlobResidency.Entry) : Nat :=
  if e.state = state && BlobResidency.evictable e then e.size else 0

-- The local bytes that an operation gives back.
def reclaimed (r : Residency) : CacheOp → Nat
  | .recordNoSpace _ size _ => size
  | .evict offset => ((BlobResidency.find r offset).map (reclaimedFrom .localUploaded)).getD 0
  | .dropSpilledLocal offset => ((BlobResidency.find r offset).map (reclaimedFrom .localSpilled)).getD 0
  | _ => 0

-- Every call on the allocator meets its own condition; the count of resident bytes is far from wrapping, and covers
-- what is reclaimed beside the metadata in flight; a checkpoint that fails was given no blob to free and took no mark.
def StepSound (w : World) : Action → Prop
  | .allocateBlob size _ => RegisterSound w.file.manager size ∧ w.tier.residency.residentBytes < 2 ^ 63
  | .cache op =>
    w.file.flight.isSome → inFlightBytes w + reclaimed w.tier.residency op ≤ w.tier.residency.residentBytes
  | .flush ok =>
    if ok then w.tier.residency.residentBytes < 2 ^ 63 ∧ ∀ h ∈ w.flushing,
      (∀ b ∈ deferred entries w h, 0 < b.size ∧ b.offset + b.size ≤ pageLimit) ∧
        BlobIndexRuns.StepSound layout w.file.manager (places (deferred entries w h)) h.checkpoint
    else handedFreed w = []
  | .writeMetadata _ ok | .writeSuperblock ok => ok = false →
      (∀ f ∈ w.file.flight, RollbackSound layout w.file.manager (f.next.metadata ++ [f.next.freeList])) ∧
        handedFreed w = [] ∧ w.cleanSnapshot = false
  | _ => True

instance (w a) : Decidable (StepSound entries layout w a) := by
  cases a <;> dsimp only [StepSound] <;> infer_instance

/-! ## What an error leaves -/

-- Marks made after a snapshot carry a later generation.
def unmarked (e : BlobResidency.Entry) : BlobResidency.Entry := { e with markedGeneration := 0 }

structure Alike (r s : Residency) : Prop where
  entry : ∀ offset, (BlobResidency.find r offset).map unmarked = (BlobResidency.find s offset).map unmarked
  lru : r.lru = s.lru
  cap : r.cap = s.cap

structure Restored (e : Expected) (w : World) : Prop where
  residency : Alike w.tier.residency e.tier.residency
  residentBytes : w.tier.residency.residentBytes = e.tier.residency.residentBytes
  liveCounts : w.tier.store.liveCounts = e.tier.store.liveCounts
  pending : w.pending = e.pending
  free : freeBytes w.file.manager = freeBytes e.manager \ freedBytes e.taken
  old : w.file.old = e.old
  cleanShutdown : w.cleanShutdown = e.cleanShutdown
  idle : w.flushing = none ∧ w.file.flight = none

variable {entries layout}

/-! ## Residencies that differ in generations only -/

theorem unmarkedSame {e f : BlobResidency.Entry} (same : unmarked e = unmarked f) :
    ∃ generation, e = { f with markedGeneration := generation } := by
  refine ⟨e.markedGeneration, ?_⟩
  cases e
  cases f
  simp only [unmarked, BlobResidency.Entry.mk.injEq] at same ⊢
  tauto

-- What an operation finds at an offset, up to the generation.
theorem alikeFound {r s : Residency} (offset) (alike : Alike r s) :
    (BlobResidency.find r offset = none ∧ BlobResidency.find s offset = none) ∨
      ∃ f generation, BlobResidency.find s offset = some f ∧
        BlobResidency.find r offset = some { f with markedGeneration := generation } := by
  have same := alike.entry offset
  cases left : BlobResidency.find r offset with
  | none =>
    rw [left, Option.map_none, eq_comm, Option.map_eq_none_iff] at same
    exact Or.inl ⟨rfl, same⟩
  | some e =>
    rw [left, Option.map_some, eq_comm, Option.map_eq_some_iff] at same
    obtain ⟨f, right, marks⟩ := same
    obtain ⟨generation, rfl⟩ := unmarkedSame marks.symm
    exact Or.inr ⟨f, generation, right, rfl⟩

theorem alikeMaps {r s : Residency} (alike : Alike r s) {map map' : DenseMap Nat BlobResidency.Entry}
    {lru bytes bytes' offset} {e f : Option BlobResidency.Entry}
    (left : ∀ k, map.find k = if k = offset then e else r.map.find k)
    (right : ∀ k, map'.find k = if k = offset then f else s.map.find k) (same : e.map unmarked = f.map unmarked) :
    Alike { r with map := map, lru := lru, residentBytes := bytes }
      { s with map := map', lru := lru, residentBytes := bytes' } := by
  refine ⟨fun k => ?_, rfl, alike.cap⟩
  show (map.find k).map unmarked = (map'.find k).map unmarked
  rw [left, right]
  split
  · exact same
  · exact alike.entry k

theorem createdAlike {r s : Residency} (alike : Alike r s) (offset size : Nat) :
    ∃ generation, BlobResidency.getOrCreate r offset size =
      { BlobResidency.getOrCreate s offset size with markedGeneration := generation } := by
  unfold BlobResidency.getOrCreate
  rcases alikeFound offset alike with ⟨left, right⟩ | ⟨f, generation, right, left⟩
  · exact ⟨0, by rw [left, right]; rfl⟩
  · exact ⟨generation, by rw [left, right]; rfl⟩

theorem markUploadedAlike {r s : Residency} (alike : Alike r s) (offset size remoteId : Nat) :
    Alike (BlobResidency.markUploaded entries r offset size remoteId).1
        (BlobResidency.markUploaded entries s offset size remoteId).1 ∧
      (BlobResidency.markUploaded entries r offset size remoteId).2 =
        (BlobResidency.markUploaded entries s offset size remoteId).2 := by
  obtain ⟨generation, same⟩ := createdAlike alike offset size
  unfold BlobResidency.markUploaded
  dsimp only
  rw [same, alike.lru]
  refine ⟨?_, rfl⟩
  exact alikeMaps alike (fun k => DenseMap.findInsert entries _ _ _ k)
    (fun k => DenseMap.findInsert entries _ _ _ k) rfl

theorem markSpilledAlike {r s : Residency} (alike : Alike r s) (state : BlobResidency.State)
    (offset size remoteId : Nat) :
    Alike (BlobResidency.markSpilledAs entries state r offset size remoteId)
      (BlobResidency.markSpilledAs entries state s offset size remoteId) := by
  obtain ⟨generation, same⟩ := createdAlike alike offset size
  unfold BlobResidency.markSpilledAs
  rw [same, alike.lru]
  exact alikeMaps alike (fun k => DenseMap.findInsert entries _ _ _ k)
    (fun k => DenseMap.findInsert entries _ _ _ k) rfl

theorem evictAlike {r s : Residency} (alike : Alike r s) (offset : Nat) :
    Alike ((BlobResidency.evict r offset).getD r) ((BlobResidency.evict s offset).getD s) := by
  unfold BlobResidency.evict
  rcases alikeFound offset alike with ⟨left, right⟩ | ⟨f, generation, right, left⟩
  · rw [left, right]
    exact alike
  · rw [left, right, alike.lru]
    dsimp only
    rw [show BlobResidency.evictable { f with markedGeneration := generation } = BlobResidency.evictable f from rfl]
    split
    · exact alikeMaps alike (fun k => DenseMap.findAssign left _ k) (fun k => DenseMap.findAssign right _ k) rfl
    · exact alike

theorem dropSpilledAlike {r s : Residency} (alike : Alike r s) (offset : Nat) :
    Alike ((BlobResidency.dropSpilledLocal r offset).getD r) ((BlobResidency.dropSpilledLocal s offset).getD s) := by
  unfold BlobResidency.dropSpilledLocal
  rcases alikeFound offset alike with ⟨left, right⟩ | ⟨f, generation, right, left⟩
  · rw [left, right]
    exact alike
  · rw [left, right, alike.lru]
    dsimp only
    rw [show BlobResidency.evictable { f with markedGeneration := generation } = BlobResidency.evictable f from rfl]
    split
    · exact alikeMaps alike (fun k => DenseMap.findAssign left _ k) (fun k => DenseMap.findAssign right _ k) rfl
    · exact alike

theorem touchAlike {r s : Residency} (alike : Alike r s) (offset : Nat) :
    Alike (BlobResidency.touch r offset) (BlobResidency.touch s offset) := by
  unfold BlobResidency.touch
  rcases alikeFound offset alike with ⟨left, right⟩ | ⟨f, generation, right, left⟩
  · rw [left, right]
    exact alike
  · rw [left, right, alike.lru]
    dsimp only
    split
    · exact ⟨alike.entry, rfl, alike.cap⟩
    · exact alike

theorem beginReadAlike {r s : Residency} (alike : Alike r s) (offset : Nat) :
    Alike (BlobResidency.beginLocalRead r offset) (BlobResidency.beginLocalRead s offset) := by
  unfold BlobResidency.beginLocalRead
  rcases alikeFound offset alike with ⟨left, right⟩ | ⟨f, generation, right, left⟩
  · rw [left, right]
    exact alike
  · rw [left, right, alike.lru]
    exact alikeMaps alike (fun k => DenseMap.findAssign left _ k) (fun k => DenseMap.findAssign right _ k) rfl

theorem endReadAlike {r s : Residency} (alike : Alike r s) (offset : Nat) :
    Alike (BlobResidency.endLocalRead r offset) (BlobResidency.endLocalRead s offset) := by
  unfold BlobResidency.endLocalRead
  rcases alikeFound offset alike with ⟨left, right⟩ | ⟨f, generation, right, left⟩
  · rw [left, right]
    exact alike
  · rw [left, right, alike.lru]
    exact alikeMaps alike (fun k => DenseMap.findAssign left _ k) (fun k => DenseMap.findAssign right _ k) rfl

-- Two tiers that differ in generations, and in the bytes charged for the metadata of a call.
structure Matches (t u : Tier) (bytes : Nat) : Prop where
  residency : Alike t.residency u.residency
  residentBytes : t.residency.residentBytes = u.residency.residentBytes + bytes
  store : t.store = u.store

theorem reclaimedAlike {r s : Residency} (alike : Alike r s) (op : CacheOp) : reclaimed r op = reclaimed s op := by
  cases op with
  | evict offset | dropSpilledLocal offset =>
    dsimp only [reclaimed]
    rcases alikeFound offset alike with ⟨left, right⟩ | ⟨f, generation, right, left⟩
    · rw [left, right]
    · rw [left, right]
      rfl
  | _ => rfl

theorem cacheCount (t : Tier) (op : CacheOp) : (applyCache entries t op).residency.residentBytes =
    t.residency.residentBytes - reclaimed t.residency op := by
  cases op with
  | evict offset =>
    dsimp only [applyCache, reclaimed, BlobResidency.evict]
    cases BlobResidency.find t.residency offset with
    | none => rfl
    | some e =>
      dsimp only [Option.map_some, Option.getD_some, reclaimedFrom]
      split <;> rfl
  | dropSpilledLocal offset =>
    dsimp only [applyCache, reclaimed, BlobResidency.dropSpilledLocal]
    cases BlobResidency.find t.residency offset with
    | none => rfl
    | some e =>
      dsimp only [Option.map_some, Option.getD_some, reclaimedFrom]
      split <;> rfl
  | recordSpilled offset size remoteId =>
    dsimp only [applyCache, recordSpilled, reclaimed]
    split <;> rfl
  | touch offset =>
    dsimp only [applyCache, BlobResidency.touch, reclaimed]
    split
    · split <;> rfl
    · rfl
  | beginLocalRead offset =>
    dsimp only [applyCache, BlobResidency.beginLocalRead, reclaimed]
    split <;> rfl
  | endLocalRead offset =>
    dsimp only [applyCache, BlobResidency.endLocalRead, reclaimed]
    split <;> rfl
  | _ => rfl

-- Every operation does to two such tiers the same, while the bytes that it reclaims are covered.
theorem cacheMatches {t u : Tier} {bytes : Nat} (same : Matches t u bytes) (op : CacheOp)
    (covered : bytes + reclaimed t.residency op ≤ t.residency.residentBytes ∨ bytes = 0) :
    Matches (applyCache entries t op) (applyCache entries u op) bytes := by
  obtain ⟨alike, count, store⟩ := same
  have counted : (applyCache entries t op).residency.residentBytes =
      (applyCache entries u op).residency.residentBytes + bytes := by
    rw [cacheCount, cacheCount, ← reclaimedAlike alike op, count]
    omega
  cases op with
  | noteBlobUploaded offset size remoteId =>
    obtain ⟨after, reference⟩ := @markUploadedAlike entries _ _ alike offset size remoteId
    refine ⟨?_, counted, ?_⟩
    · simpa only [applyCache, noteBlobUploaded] using after
    · simp only [applyCache, noteBlobUploaded, reference, store]
  | recordSpilled offset size remoteId =>
    refine ⟨?_, counted, ?_⟩
    all_goals
      simp only [applyCache, recordSpilled, store]
      rcases alikeFound offset alike with ⟨left, right⟩ | ⟨f, generation, right, left⟩
      all_goals rw [left, right]
    · exact markSpilledAlike alike _ offset size remoteId
    · exact alike
    · rfl
    · rfl
  | recordDiverted offset size remoteId => exact ⟨markSpilledAlike alike _ offset size remoteId, counted, store⟩
  | recordNoSpace offset size remoteId =>
    have after := @markSpilledAlike entries _ _ alike .remoteSpilled offset size remoteId
    exact ⟨⟨after.entry, after.lru, after.cap⟩, counted, store⟩
  | evict offset => exact ⟨evictAlike alike offset, counted, store⟩
  | dropSpilledLocal offset => exact ⟨dropSpilledAlike alike offset, counted, store⟩
  | touch offset => exact ⟨touchAlike alike offset, counted, store⟩
  | beginLocalRead offset => exact ⟨beginReadAlike alike offset, counted, store⟩
  | endLocalRead offset => exact ⟨endReadAlike alike offset, counted, store⟩
  | setCap cap => exact ⟨⟨alike.entry, alike.lru, rfl⟩, counted, store⟩
  | appendBlob data => exact ⟨alike, counted, by simp only [applyCache, store]⟩
  | flushed => exact ⟨alike, counted, by simp only [applyCache, store]⟩
  | startSweep => exact ⟨alike, counted, by simp only [applyCache, store]⟩
  | endSweep => exact ⟨alike, counted, by simp only [applyCache, store]⟩

theorem chargeMatches {t u : Tier} {bytes more : Nat} (same : Matches t u bytes)
    (small : t.residency.residentBytes + more < 2 ^ 64) : Matches (charge t more) (charge u more) bytes := by
  refine ⟨⟨same.residency.entry, same.residency.lru, same.residency.cap⟩, ?_, same.store⟩
  have count := same.residentBytes
  show u64 (t.residency.residentBytes + more) = u64 (u.residency.residentBytes + more) + bytes
  rw [u64Small small, u64Small (by omega), count]
  omega

-- The generation is no part of what is compared.
theorem recount {t u : Tier} {bytes : Nat} (same : Matches t u bytes) {count left : Nat} (generation : Nat)
    (counted : count = u.residency.residentBytes + left) :
    Matches { t with residency := { t.residency with residentBytes := count, generation := generation } } u left :=
  ⟨⟨same.residency.entry, same.residency.lru, same.residency.cap⟩, counted, same.store⟩

/-! ## The invariant -/

-- What the call has been handed for its own metadata.
def grants (w : World) : List (Nat × Nat) := (w.file.flight.map fun f => places (own f.next)).getD []

structure Underway (w : World) (e : Expected) : Prop where
  room : freedBytes (grants w) ⊆ freeBytes e.manager \ freedBytes e.taken
  free : freeBytes w.file.manager = (freeBytes e.manager \ freedBytes e.taken) \ freedBytes (grants w)
  old : w.file.old = e.old
  same : e.freed = [] → Matches w.tier e.tier (inFlightBytes w) ∧ w.pending = e.pending
  cleanShutdown : (w.file.flight ≠ none → w.cleanSnapshot = false) → w.cleanShutdown = e.cleanShutdown
  handed : ∀ h ∈ w.flushing, h.freed = e.freed

structure Invariant (w : World) : Prop where
  file : PackedFileRuns.Sound w.file
  one : w.flushing ≠ none → w.file.flight = none
  call : ∀ e ∈ w.expected, Underway w e
  failed : ∀ e ∈ w.failed, Restored e w

theorem failRestored {w e} (call : Underway w e) (flight : w.file.flight = none) (freed : e.freed = []) :
    Restored e (fail w) := by
  obtain ⟨tier, pending⟩ := call.same freed
  have none_ : grants w = [] := by rw [grants, flight]; rfl
  have nothing : inFlightBytes w = 0 := by rw [inFlightBytes, flight]; rfl
  have free := call.free
  rw [none_, show freedBytes [] = ∅ by simp [freedBytes], Set.sdiff_empty] at free
  rw [nothing] at tier
  exact ⟨tier.residency, tier.residentBytes, congrArg Store.liveCounts tier.store, pending, free, call.old,
    call.cleanShutdown fun going => absurd flight going, rfl, flight⟩

theorem handedNone {w e} (here : e ∈ w.expected) (freed : handedFreed w = []) : e.freed = [] := by
  have there : w.expected = some e := here
  rwa [handedFreed, there] at freed

theorem failInvariant {w} (file : PackedFileRuns.Sound w.file) (flight : w.file.flight = none)
    (call : ∀ e ∈ w.expected, Underway w e) (freed : handedFreed w = []) : Invariant (fail w) := by
  refine ⟨file, fun going => absurd rfl going, ?_, ?_⟩
  · intro e here
    cases here
  · intro e here
    exact failRestored (call e here) flight (handedNone here freed)

theorem allocateInvariant {w size} (data : Bool) (inv : Invariant w) (word : size < 2 ^ 32)
    (fits : RegisterSound w.file.manager size) (small : w.tier.residency.residentBytes < 2 ^ 63) :
    Invariant (allocateBlob layout w size data) := by
  obtain ⟨_, room, left, _⟩ := registerSpec layout inv.file.ledger.well word fits
  refine ⟨PackedFileRuns.allocateSound layout inv.file word fits, inv.one, ?_, by simp [allocateBlob]⟩
  intro e here
  obtain ⟨before, there, rfl⟩ := Option.map_eq_some_iff.mp here
  obtain ⟨mine, free, old, same, clean, handed⟩ := inv.call before there
  refine ⟨?_, ?_, old, fun freed => ?_, clean, handed⟩
  · show freedBytes (grants w) ⊆ _ \ freedBytes (_ :: before.taken)
    rw [freedCons, Set.union_comm, ← Set.sdiff_sdiff]
    refine Set.subset_sdiff.mpr ⟨mine, ?_⟩
    rw [free] at room
    exact (Set.disjoint_sdiff_left.mono_left room).symm
  · show freeBytes (registerBlob layout w.file.manager size).1 =
      (_ \ freedBytes (_ :: before.taken)) \ freedBytes (grants w)
    rw [left, free, freedCons]
    ext b
    simp only [Set.mem_sdiff, Set.mem_union]
    tauto
  · obtain ⟨tier, pending⟩ := same freed
    have few : localBytes w size data ≤ size := by
      unfold localBytes
      split
      · exact Nat.zero_le size
      · exact Nat.le_refl size
    exact ⟨chargeMatches tier (by omega), pending⟩

theorem writeInvariant {w blob count} (inv : Invariant w) (mem : blob ∈ w.file.allocated)
    (within : count ≤ blob.size) :
    Invariant (writeBlob w blob count) := by
  refine ⟨PackedFileRuns.writeSound inv.file mem within, inv.one, fun e here => ?_, by simp [writeBlob]⟩
  obtain ⟨mine, free, old, same, clean, handed⟩ := inv.call e here
  exact ⟨mine, free, old, same, clean, handed⟩

theorem discardInvariant {w} (inv : Invariant w) (blob : Blob) : Invariant (discard w blob) := by
  refine ⟨inv.file, inv.one, fun e here => ?_, by simp [discard]⟩
  obtain ⟨before, there, rfl⟩ := Option.map_eq_some_iff.mp here
  obtain ⟨mine, free, old, same, clean, handed⟩ := inv.call before there
  refine ⟨mine, free, old, fun freed => ?_, clean, handed⟩
  obtain ⟨tier, pending⟩ := same freed
  exact ⟨tier, congrArg (· ++ [blob]) pending⟩

theorem markInvariant {w} (inv : Invariant w) : Invariant (setCleanShutdownNextCheckpoint w) := by
  refine ⟨inv.file, inv.one, fun e here => ?_, by simp [setCleanShutdownNextCheckpoint]⟩
  obtain ⟨before, there, rfl⟩ := Option.map_eq_some_iff.mp here
  obtain ⟨mine, free, old, same, clean, handed⟩ := inv.call before there
  exact ⟨mine, free, old, same, fun _ => rfl, handed⟩

theorem cacheInvariant {w} (inv : Invariant w) (op : CacheOp)
    (covered : w.file.flight.isSome →
      inFlightBytes w + reclaimed w.tier.residency op ≤ w.tier.residency.residentBytes) :
    Invariant (cache entries w op) := by
  refine ⟨inv.file, inv.one, fun e here => ?_, by simp [cache]⟩
  obtain ⟨before, there, rfl⟩ := Option.map_eq_some_iff.mp here
  obtain ⟨mine, free, old, same, clean, handed⟩ := inv.call before there
  refine ⟨mine, free, old, fun freed => ?_, clean, handed⟩
  obtain ⟨tier, pending⟩ := same freed
  refine ⟨cacheMatches tier op ?_, pending⟩
  cases going : w.file.flight with
  | none => exact Or.inr (by rw [inFlightBytes, going]; rfl)
  | some f => exact Or.inl (covered (by rw [going]; rfl))

theorem alikeRefl (r : Residency) : Alike r r := ⟨fun _ => rfl, rfl, rfl⟩

theorem callInvariant {w treeRegistry reachable c} (inv : Invariant w) (idle : w.file.flight = none) :
    Invariant (writeIndex w treeRegistry reachable c) := by
  refine ⟨inv.file, fun _ => idle, fun e here => ?_, by simp [writeIndex]⟩
  cases here
  have none_ : grants (writeIndex w treeRegistry reachable c) = [] := by
    show (w.file.flight.map fun f => places (own f.next)).getD [] = []
    rw [idle]
    rfl
  have empty : freedBytes [] = ∅ := by simp [freedBytes]
  have nothing : inFlightBytes (writeIndex w treeRegistry reachable c) = 0 := by
    show (w.file.flight.map fun f => sizes (own f.next)).getD 0 = 0
    rw [idle]
    rfl
  have same : Matches w.tier w.tier 0 := ⟨alikeRefl _, rfl, rfl⟩
  rw [← nothing] at same
  refine ⟨?_, ?_, rfl, fun freed => ⟨same, freed.symm⟩, fun _ => rfl, fun h here => ?_⟩
  · rw [none_, empty]
    exact Set.empty_subset _
  · rw [none_, empty, Set.sdiff_empty, Set.sdiff_empty]
    rfl
  · cases here
    rfl

/-! ## The allocator block -/

theorem forgottenKept (t : Tier) (freed : List Blob) : (forgetFreed entries t freed).2.Sublist freed := by
  induction freed generalizing t with
  | nil => exact List.Sublist.slnil
  | cons b rest ih =>
    unfold forgetFreed
    split
    · exact (ih t).cons_cons b
    · exact (ih _).cons b

theorem forgottenStore (r : Residency) (s s' : Store) (freed : List Blob) :
    (forgetFreed entries ⟨r, s⟩ freed).2 = (forgetFreed entries ⟨r, s'⟩ freed).2 := by
  induction freed generalizing r s s' with
  | nil => rfl
  | cons b rest ih =>
    unfold forgetFreed
    dsimp only
    split
    · exact congrArg (b :: ·) (ih r s s')
    · exact ih _ _ _

theorem handedFewer {w : PackedFile.World} {freed kept treeRegistry reachable c}
    (handed : Handed w freed treeRegistry reachable c) (fewer : kept.Sublist freed) :
    Handed w kept treeRegistry reachable c :=
  ⟨(fewer.append_right _).subperm.trans handed.distinct, handed.written, handed.words⟩

theorem soundCheckpoint {m} {deferred : List Blob} {c}
    (proper : ∀ b ∈ deferred, 0 < b.size ∧ b.offset + b.size ≤ pageLimit)
    (sound : BlobIndexRuns.StepSound layout m (places deferred) c) :
    PackedFileRuns.CheckpointSound layout m deferred c := by
  obtain ⟨registers, _, list⟩ := sound
  exact ⟨registers, fun snapshot here => ⟨proper, BlobIndexRuns.soundSafe layout (list snapshot here)⟩⟩

structure Blocked (before after : PackedFile.World) (treeRegistry : Blob) (reachable : List Blob) (f : Flight) :
    Prop where
  flight : after.flight = some f
  -- The superblock to come names what the call was handed, and its own blobs are far from filling a word.
  handed : f.next.treeRegistry = treeRegistry ∧ f.next.reachable = reachable
  small : sizes (own f.next) < 2 ^ 35
  room : freedBytes (places (own f.next)) ⊆ freeBytes before.manager
  free : freeBytes after.manager = freeBytes before.manager \ freedBytes (places (own f.next))
  old : after.old = before.old

theorem registeredSizes (m : FreeBlobManager) (sizes : List Nat) :
    (registerAll layout m sizes).2.map Prod.snd = sizes := by
  induction sizes generalizing m with
  | nil => rfl
  | cons size rest ih => exact congrArg (size :: ·) (ih _)

theorem placedWord {turns attempt live snapshot placed}
    (done : placeList layout turns attempt live snapshot = .ok placed) : placed.list.2 < 2 ^ 32 := by
  fun_induction placeList layout turns attempt live snapshot with
  | case3 =>
    cases done
    exact u32Lt _
  | case6 _ _ _ _ _ _ _ _ _ _ _ ih => exact ih done
  | _ => cases done

theorem allocatorWord {m : FreeBlobManager} {deferred c metadata placed}
    (done : writeIndexAllocator layout m deferred c = .ok (metadata, placed)) : placed.list.2 < 2 ^ 32 := by
  unfold writeIndexAllocator at done
  dsimp only at done
  split at done
  · cases done
  · cases list : placeList layout 5 0 (registerAll layout m (payloads c)).1 ‹_› with
    | error e =>
      rw [list] at done
      cases done
    | ok placed =>
      rw [list] at done
      cases done
      exact placedWord list

-- A few blobs of less than a word each.
theorem ownSmall {m : FreeBlobManager} {c : Checkpoint} (words : ∀ size ∈ payloads c, size < 2 ^ 32) {list : Blob}
    (word : list.size < 2 ^ 32) (first : Nat) :
    sizes (list :: named first (registerAll layout m (payloads c)).2) < 2 ^ 35 := by
  have registered : (named first (registerAll layout m (payloads c)).2).map Blob.size = payloads c := by
    calc
      _ = (places (named first (registerAll layout m (payloads c)).2)).map Prod.snd := (List.map_map ..).symm
      _ = payloads c := by rw [PackedFileRuns.namedPlaces, registeredSizes]
  rw [sizes, List.map_cons, List.sum_cons, registered]
  unfold payloads at words ⊢
  cases table : c.residencySize with
  | none =>
    simp only [table, Option.toList_none, List.append_nil, List.forall_mem_cons, List.sum_cons,
      List.sum_nil] at words ⊢
    omega
  | some size =>
    simp only [table, Option.toList_some, List.cons_append, List.nil_append, List.forall_mem_cons, List.sum_cons,
      List.sum_nil] at words ⊢
    omega

theorem indexBlocked {w : PackedFile.World} {freed treeRegistry reachable c} (sound : PackedFileRuns.Sound w)
    (handed : Handed w freed treeRegistry reachable c)
    (step : BlobIndexRuns.StepSound layout w.manager (places (freed ++ w.old.filter fun b => 0 < b.offset)) c) :
    ∃ f, Blocked w (PackedFile.writeIndex layout w freed treeRegistry reachable c) treeRegistry reachable f := by
  have apart := PackedFileRuns.handedApart sound handed
  have those : (freed ++ w.old.filter fun b => 0 < b.offset).Subperm w.allocated :=
    (List.sublist_append_left _ _).subperm.trans apart
  unfold PackedFile.writeIndex
  dsimp only
  generalize (freed ++ w.old.filter fun b => 0 < b.offset) = deferred at *
  have held : (places w.allocated).Perm (places deferred ++ places (w.allocated.diff deferred)) := by
    have order := (PackedFileRuns.permDiff those).map Blob.location
    rwa [List.map_append] at order
  obtain ⟨placed, done, exact_⟩ := BlobIndexRuns.allocatorExact layout sound.ledger held handed.words step
  obtain ⟨roomAll, leftAll⟩ := BlobIndexRuns.registerAllFree layout handed.words sound.ledger.well step.1
  rw [show deferred.map Blob.location = places deferred from rfl, done]
  dsimp only
  refine ⟨_, rfl, ⟨rfl, rfl⟩, ownSmall handed.words (allocatorWord done) _, ?_, ?_, rfl⟩
  all_goals
    dsimp only [own]
    rw [show ∀ b rest, places (b :: rest) = b.location :: places rest from fun _ _ => rfl, freedCons,
      PackedFileRuns.namedPlaces]
  · refine Set.union_subset ?_ roomAll
    exact exact_.room.trans (leftAll ▸ Set.sdiff_subset)
  · rw [exact_.left, leftAll, Set.sdiff_sdiff, Set.union_comm]
    rfl

theorem blockInvariant {w h} (inv : Invariant w) (flushing : w.flushing = some h)
    (handed : Handed w.file h.freed h.treeRegistry h.reachable h.checkpoint)
    (small : w.tier.residency.residentBytes < 2 ^ 63)
    (proper : ∀ b ∈ deferred entries w h, 0 < b.size ∧ b.offset + b.size ≤ pageLimit)
    (step : BlobIndexRuns.StepSound layout w.file.manager (places (deferred entries w h)) h.checkpoint) :
    Invariant (allocatorBlock entries layout w h) := by
  have idle : w.file.flight = none := inv.one (by rw [flushing]; exact Option.some_ne_none h)
  have fewer := @forgottenKept entries w.tier h.freed
  have kept := handedFewer handed fewer
  obtain ⟨f, flight, _, few, room, free, old⟩ := indexBlocked inv.file kept step
  have file := PackedFileRuns.checkpointSound layout inv.file idle kept (soundCheckpoint proper step)
  unfold allocatorBlock
  dsimp only
  rw [flight]
  dsimp only
  refine ⟨file, fun going => absurd rfl going, fun e here => ?_, by simp⟩
  have call := inv.call e here
  have none_ : grants w = [] := by rw [grants, idle]; rfl
  have free_ := call.free
  rw [none_, show freedBytes [] = ∅ by simp [freedBytes], Set.sdiff_empty] at free_
  have grants_ : ∀ after : World, after.file.flight = some f → grants after = places (own f.next) := by
    intro after there
    rw [grants, there]
    rfl
  refine ⟨?_, ?_, old.trans call.old, fun freed => ?_, fun unmarked => ?_, by simp⟩
  · rw [grants_ _ flight, ← free_]
    exact room
  · rw [grants_ _ flight, ← free_]
    exact free
  · obtain ⟨tier, pending⟩ := call.same freed
    have nothing : h.freed = [] := (call.handed h flushing).trans freed
    have none_ : inFlightBytes w = 0 := by rw [inFlightBytes, idle]; rfl
    rw [none_] at tier
    have charged : u64 (w.tier.residency.residentBytes + sizes (own f.next)) =
        e.tier.residency.residentBytes + sizes (own f.next) := by
      rw [u64Small (by omega), tier.residentBytes, Nat.add_zero]
    have charge_ : ∀ after : World, after.file.flight = some f → inFlightBytes after = sizes (own f.next) := by
      intro after there
      rw [inFlightBytes, there]
      rfl
    rw [charge_ _ flight, nothing]
    exact ⟨recount tier _ charged, pending⟩
  · have before := call.cleanShutdown fun going => absurd idle going
    exact (unmarked (by rw [flight]; exact Option.some_ne_none f)).symm.trans before

-- The flush is no matter to what is forgotten.
theorem flushedDeferred (w : World) (h : Handover) :
    deferred entries (cache entries w .flushed) h = deferred entries w h :=
  congrArg (· ++ _) (forgottenStore w.tier.residency (flushSegment w.tier.store) w.tier.store h.freed)

theorem flushInvariant {w h ok} (inv : Invariant w) (flushing : w.flushing = some h)
    (handed : ok = true → Handed w.file h.freed h.treeRegistry h.reachable h.checkpoint)
    (step : StepSound entries layout w (.flush ok)) : Invariant (flush entries layout w h ok) := by
  have idle : w.file.flight = none := inv.one (by rw [flushing]; exact Option.some_ne_none h)
  cases ok with
  | true =>
    obtain ⟨small, cond⟩ := step
    obtain ⟨proper, sound⟩ := cond h flushing
    have flushed := @cacheInvariant entries _ inv .flushed fun going =>
      absurd idle (Option.isSome_iff_ne_none.mp going)
    refine blockInvariant flushed flushing (handed rfl) small ?_ ?_
    · rw [flushedDeferred]
      exact proper
    · rw [flushedDeferred]
      exact sound
  | false => exact failInvariant inv.file idle inv.call step

/-! ## The writes -/

theorem rollbackUnderway {w e} {f : Flight} (inv : Invariant w) (flight : w.file.flight = some f)
    (here : e ∈ w.expected)
    (release : RollbackSound layout w.file.manager (f.next.metadata ++ [f.next.freeList]))
    (unmarked : w.cleanSnapshot = false) :
    Underway { w with
      file := PackedFile.rollbackMetadata layout w.file f.next
      tier := refund w.tier (sizes (own f.next))
      failed := none } e := by
  obtain ⟨mine, free, old, before, clean, handed⟩ := inv.call e here
  have ours : grants w = places (own f.next) := by rw [grants, flight]; rfl
  rw [ours] at mine free
  have going := inv.file.flight f flight
  have those : (own f.next).Subperm w.file.allocated := (List.sublist_append_left _ _).subperm.trans going.apart
  have order : w.file.allocated.Perm
      ((f.next.metadata ++ [f.next.freeList]) ++ w.file.allocated.diff (own f.next)) :=
    (PackedFileRuns.permDiff those).trans ((List.perm_append_singleton _ _).symm.append_right _)
  have ledger := BlobRuns.permInvariant (order.map Blob.location) inv.file.ledger
  rw [List.map_append] at ledger
  have released := PackedFileRuns.releaseAllFree layout ledger release
  have permuted : freedBytes (places (f.next.metadata ++ [f.next.freeList])) =
      freedBytes (places (own f.next)) := by
    have perm := (List.perm_append_singleton f.next.freeList f.next.metadata).map Blob.location
    ext b
    simp only [freedBytes, Set.mem_ofPred_eq]
    exact exists_congr fun blob => and_congr_left fun _ => perm.mem_iff
  have empty : freedBytes [] = ∅ := by simp [freedBytes]
  refine ⟨?_, ?_, old, fun freed => ?_, fun _ => clean fun _ => unmarked, handed⟩
  · show freedBytes [] ⊆ _
    rw [empty]
    exact Set.empty_subset _
  · show freeBytes (releaseAll layout w.file.manager _) = _ \ freedBytes []
    rw [released, permuted, free, empty, Set.sdiff_empty, Set.sdiff_union_of_subset mine]
  · obtain ⟨tier, pending⟩ := before freed
    have charged : inFlightBytes w = sizes (own f.next) := by rw [inFlightBytes, flight]; rfl
    rw [charged] at tier
    refine ⟨recount tier _ ?_, pending⟩
    show w.tier.residency.residentBytes - sizes (own f.next) = _
    rw [tier.residentBytes, Nat.add_sub_cancel]
    rfl

theorem metadataInvariant {w next deferred blob left count ok} (inv : Invariant w)
    (flight : w.file.flight = some ⟨next, deferred, blob :: left⟩) (within : count ≤ blob.size)
    (whole : ok = true → count = blob.size) (step : StepSound entries layout w (.writeMetadata count ok)) :
    Invariant (writeMetadata layout w ⟨next, deferred, blob :: left⟩ blob left count ok) := by
  have file := PackedFileRuns.metadataSound layout inv.file flight within whole
    fun failed => (step failed).1 _ flight
  cases ok with
  | true =>
    have one : w.flushing = none := by
      by_contra going
      rw [inv.one going] at flight
      cases flight
    refine ⟨file, fun going => absurd one going, fun e here => ?_, by simp [writeMetadata]⟩
    obtain ⟨mine, free, old, same, clean, handed⟩ := inv.call e here
    have ours : grants w = places (own next) := by rw [grants, flight]; rfl
    have charged : inFlightBytes w = sizes (own next) := by rw [inFlightBytes, flight]; rfl
    rw [ours] at mine free
    rw [charged] at same
    refine ⟨mine, free, old, same, fun unmarked => clean fun _ => unmarked ?_, handed⟩
    exact Option.some_ne_none _
  | false =>
    obtain ⟨release, freed, unmarked⟩ := step rfl
    have mem : blob ∈ w.file.allocated :=
      (inv.file.flight _ flight).apart.subset
        (List.mem_append_left _ ((inv.file.flight _ flight).left List.mem_cons_self))
    have written : Invariant (writeBlob w blob count) := writeInvariant inv mem within
    refine failInvariant file rfl (fun e here => ?_) freed
    exact rollbackUnderway written flight here (release _ flight) unmarked

theorem superblockInvariant {w next deferred ok} (inv : Invariant w)
    (flight : w.file.flight = some ⟨next, deferred, []⟩)
    (step : StepSound entries layout w (.writeSuperblock ok)) :
    Invariant (writeSuperblock layout w ⟨next, deferred, []⟩ ok) := by
  cases ok with
  | true =>
    obtain ⟨after, returned, _⟩ := PackedFileRuns.deferredReturned layout inv.file flight
    have file := PackedFileRuns.commitSound layout inv.file flight
    unfold writeSuperblock
    simp only [returned, if_true]
    exact ⟨file, fun _ => by simp [PackedFile.writeSuperblock], by simp, by simp⟩
  | false =>
    obtain ⟨release, freed, unmarked⟩ := step rfl
    have file := PackedFileRuns.rollbackSound layout inv.file flight (release _ flight)
    refine failInvariant file rfl (fun e here => ?_) freed
    exact rollbackUnderway inv flight here (release _ flight) unmarked

theorem clearInvariant {w} (inv : Invariant w) : Invariant { w with failed := none } := by
  refine ⟨inv.file, inv.one, fun e here => ?_, by simp⟩
  obtain ⟨mine, free, old, same, clean, handed⟩ := inv.call e here
  exact ⟨mine, free, old, same, clean, handed⟩

theorem performInvariant {w a} (inv : Invariant w) (step : StepSound entries layout w a) (allowed : Allowed w a) :
    Invariant (perform entries layout w a) := by
  cases a with
  | allocateBlob size data => exact allocateInvariant data inv allowed.2 step.1 step.2
  | writeBlob blob count => exact writeInvariant inv allowed.1 allowed.2
  | discard blob => exact discardInvariant inv blob
  | cache op => exact cacheInvariant inv op step
  | setCleanShutdownNextCheckpoint => exact markInvariant inv
  | writeIndex treeRegistry reachable c => exact callInvariant inv (Option.isNone_iff_eq_none.mp allowed.2)
  | flush ok =>
    unfold perform
    dsimp only
    split
    · rename_i h flushing
      exact flushInvariant inv flushing (fun done => allowed done h flushing) step
    · exact clearInvariant inv
  | writeMetadata count ok =>
    unfold perform
    dsimp only
    split
    · rename_i next deferred blob left flight
      obtain ⟨within, whole⟩ := allowed _ flight blob rfl
      exact metadataInvariant inv flight within whole step
    · exact clearInvariant inv
  | writeSuperblock ok =>
    unfold perform
    dsimp only
    split
    · rename_i next deferred flight
      exact superblockInvariant inv flight step
    · exact clearInvariant inv

theorem runInvariant : Inductive ((system entries layout).under (StepSound entries layout)) Invariant := by
  constructor
  · intro w first
    cases first
    refine ⟨PackedFileRuns.startSound layout _, fun going => absurd rfl going, by simp [start], by simp [start]⟩
  · intro w a after inv step
    obtain ⟨cond, allowed, rfl⟩ := step
    exact performInvariant inv cond allowed

/-! ## A call that is made again -/

-- What is left to be written of a call, every write of it done.
def writes (f : Flight) : List Action := f.left.map (fun b => .writeMetadata b.size true) ++ [.writeSuperblock true]

-- The call that this superblock belongs to has succeeded.
structure Succeeded (next : Superblock) (w : World) : Prop where
  superblock : w.file.superblock = some next
  superseded : w.file.old = superseded next
  returned : w.expected = none ∧ w.failed = none
  idle : w.flushing = none ∧ w.file.flight = none

variable (entries layout) in
-- A call made now comes through where its calls on the allocator do and no write of it fails.
def Commits (w : World) : Prop := ∀ treeRegistry reachable c,
  let called := writeIndex w treeRegistry reachable c
  Allowed called (.flush true) → StepSound entries layout called (.flush true) →
    ∃ f, (perform entries layout called (.flush true)).file.flight = some f ∧
      f.next.treeRegistry = treeRegistry ∧ f.next.reachable = reachable ∧
      Succeeded f.next ((writes f).foldl (perform entries layout) (perform entries layout called (.flush true)))

theorem writesSucceed {w next deferred left} (inv : Invariant w)
    (flight : w.file.flight = some ⟨next, deferred, left⟩) :
    Succeeded next ((writes ⟨next, deferred, left⟩).foldl (perform entries layout) w) := by
  induction left generalizing w with
  | nil =>
    obtain ⟨after, returned, _⟩ := PackedFileRuns.deferredReturned layout inv.file flight
    have one : w.flushing = none := by
      by_contra going
      rw [inv.one going] at flight
      cases flight
    have step : perform entries layout w (.writeSuperblock true) =
        writeSuperblock layout w ⟨next, deferred, []⟩ true := by
      dsimp only [perform]
      rw [flight]
    show Succeeded _ (perform entries layout w (.writeSuperblock true))
    rw [step]
    unfold writeSuperblock PackedFile.writeSuperblock
    simp only [returned, if_true]
    exact ⟨rfl, rfl, ⟨rfl, rfl⟩, one, rfl⟩
  | cons blob left ih =>
    have step : perform entries layout w (.writeMetadata blob.size true) =
        writeMetadata layout w ⟨next, deferred, blob :: left⟩ blob left blob.size true := by
      dsimp only [perform]
      rw [flight]
    have after : Invariant (writeMetadata layout w ⟨next, deferred, blob :: left⟩ blob left blob.size true) :=
      @metadataInvariant entries layout _ _ _ _ _ _ _ inv flight (Nat.le_refl _) (fun _ => rfl) fun failed =>
        nomatch failed
    have rest := ih after rfl
    rw [← step] at rest
    exact rest

theorem flushFlight {w h} (file : PackedFileRuns.Sound w.file) (flushing : w.flushing = some h)
    (handed : Handed w.file h.freed h.treeRegistry h.reachable h.checkpoint)
    (step : BlobIndexRuns.StepSound layout w.file.manager (places (deferred entries w h)) h.checkpoint) :
    ∃ f, (perform entries layout w (.flush true)).file.flight = some f ∧
      f.next.treeRegistry = h.treeRegistry ∧ f.next.reachable = h.reachable := by
  rw [← flushedDeferred w h] at step
  have kept := handedFewer handed (@forgottenKept entries (cache entries w .flushed).tier h.freed)
  obtain ⟨f, flight, named, _⟩ := indexBlocked file kept step
  refine ⟨f, ?_, named⟩
  dsimp only [perform]
  rw [flushing]
  show (allocatorBlock entries layout (cache entries w .flushed) h).file.flight = some f
  unfold allocatorBlock
  dsimp only
  rw [show (cache entries w .flushed).file = w.file from rfl, flight]
  exact flight

theorem callCommits {w} (inv : Invariant w) (idle : w.flushing = none ∧ w.file.flight = none) :
    Commits entries layout w := by
  intro treeRegistry reachable c called allowed step
  have started : Invariant called := callInvariant inv idle.2
  have done := performInvariant started step allowed
  obtain ⟨f, flight, handed⟩ := flushFlight started.file rfl (allowed rfl _ rfl) (step.2 _ rfl).2
  exact ⟨f, flight, handed.1, handed.2, writesSucceed done flight⟩

-- A call whose error has been returned has left no trace, and may be made again.
theorem failedRestored {w} (reach : Reachable ((system entries layout).under (StepSound entries layout)) w) :
    ∀ e ∈ w.failed, Restored e w ∧ Commits entries layout w := by
  intro e failed
  have inv := reachableInvariant runInvariant reach
  have restored := inv.failed e failed
  exact ⟨restored, callCommits inv restored.idle⟩

abbrev entryLayout := appendLayout Nat BlobResidency.Entry
abbrev sections := appendLayout Nat (List Section)

/-! The flush and then a write of metadata fail while others allocate, upload and discard; the third
attempt is under way when a superblock write fails. The fourth frees the discarded blob and comes through. -/

def retried : List Action :=
  [.allocateBlob 1000 true, .allocateBlob 64 false, .writeBlob ⟨1, 128, 1000⟩ 1000, .writeBlob ⟨2, 1128, 64⟩ 64,
    .cache (.appendBlob [1, 2]), .writeIndex ⟨2, 1128, 64⟩ [⟨1, 128, 1000⟩] ⟨100, 8, 4, some 29⟩, .allocateBlob 50 true,
    .flush false, .writeIndex ⟨2, 1128, 64⟩ [⟨1, 128, 1000⟩] ⟨100, 8, 4, some 29⟩, .flush true,
    .writeMetadata 12 true, .cache (.noteBlobUploaded 128 1000 7), .allocateBlob 300 true, .writeMetadata 40 false,
    .writeIndex ⟨2, 1128, 64⟩ [⟨1, 128, 1000⟩] ⟨100, 8, 4, some 51⟩, .flush true, .discard ⟨1, 128, 1000⟩,
    .setCleanShutdownNextCheckpoint, .writeMetadata 36 true, .writeMetadata 100 true, .writeMetadata 8 true,
    .writeMetadata 4 true, .writeMetadata 51 true, .writeSuperblock false]

def afterRetries : World := retried.foldl (perform entryLayout sections) (start sections)

def fourth : World :=
  perform entryLayout sections (writeIndex afterRetries ⟨2, 1128, 64⟩ [] ⟨100, 8, 4, some 29⟩) (.flush true)

theorem retriedRestored : (∃ e ∈ afterRetries.failed, Restored e afterRetries) ∧
    ∃ f, fourth.file.flight = some f ∧ Succeeded f.next ((writes f).foldl (perform entryLayout sections) fourth) := by
  have failed : afterRetries.failed.isSome := by decide
  obtain ⟨e, there⟩ := Option.isSome_iff_exists.mp failed
  obtain ⟨restored, commits⟩ := @failedRestored entryLayout sections afterRetries (reachableAllowed (by decide)) e there
  obtain ⟨f, flight, _, _, succeeded⟩ := commits ⟨2, 1128, 64⟩ [] ⟨100, 8, 4, some 29⟩ (by decide) (by decide)
  exact ⟨⟨e, there, restored⟩, f, flight, succeeded⟩

/-! The blob to be freed has been uploaded, and the first write of the checkpoint fails. -/

def uploadedFreed : List Action :=
  [.allocateBlob 64 true, .writeBlob ⟨1, 128, 64⟩ 64, .cache (.noteBlobUploaded 128 64 7), .allocateBlob 32 false,
    .writeBlob ⟨2, 192, 32⟩ 32, .discard ⟨1, 128, 64⟩, .writeIndex ⟨2, 192, 32⟩ [] ⟨100, 8, 4, some 51⟩, .flush true,
    .writeMetadata 0 false]

theorem uploadedForgotten :
    ¬∀ entries layout w, Reachable (system entries layout) w → ∀ e ∈ w.failed, Restored e w := by
  intro all
  have run : AllAllowed (fun w a => True ∧ Allowed w a) (perform entryLayout sections) (start sections)
      uploadedFreed := by decide
  have restored := all _ _ _ (reachableUnder (reachableAllowed run))
  have gone : (BlobResidency.find (uploadedFreed.foldl (perform entryLayout sections) (start sections)).tier.residency
      128).isNone = true := by decide
  have there : (uploadedFreed.foldl (perform entryLayout sections) (start sections)).failed.map
      (fun e => (BlobResidency.find e.tier.residency 128).isNone) = some false := by decide
  obtain ⟨e, failed, found⟩ := Option.map_eq_some_iff.mp there
  have same := (restored e failed).residency.entry 128
  rw [Option.isNone_iff_eq_none.mp gone, Option.map_none, eq_comm, Option.map_eq_none_iff] at same
  rw [same] at found
  cases found

end Dewfall.CheckpointRollback
