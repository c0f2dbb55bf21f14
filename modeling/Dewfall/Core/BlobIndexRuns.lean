import Dewfall.Core.BlobIndex
import Dewfall.Core.BlobRuns

/-! The allocator block of `write_index` from any reachable blob manager. Where its condition holds
it succeeds, and the copy it serializes describes the live allocation less the freed blobs. What
other allocations do while the blobs are written is not treated here. -/
namespace Dewfall.BlobIndexRuns
open General General.Transition BlobManager BlobFreeSpace BlobRegister BlobRelease BlobClaim BlobRuns BlobIndex

variable (layout : Layout Nat (List Section))

def freedBytes (blobs : List (Nat × Nat)) : Set Nat := {b | ∃ blob ∈ blobs, b ∈ range blob}

theorem freedCons (blob : Nat × Nat) (rest : List (Nat × Nat)) :
    freedBytes (blob :: rest) = range blob ∪ freedBytes rest := by
  ext b
  simp [freedBytes, range]

/-! ## The condition -/

def RegistersSound (m : FreeBlobManager) : List Nat → Prop
  | [] => True
  | size :: rest => RegisterSound m size ∧ RegistersSound (registerBlob layout m size).1 rest

-- The list is handed free bytes on one side of the copy's end, its size does not wrap, and a gap
-- between the copy's end and the live one lies on at most five pages.
structure AttemptSound (live snapshot : FreeBlobManager) (size : Nat) : Prop where
  small : 12 + listed snapshot.freeSectionsByPage + 128 < 2 ^ 32
  register : RegisterSound live size
  limit : (registerBlob layout live size).2 + size ≤ pageLimit
  side : snapshot.nextOffset ≤ (registerBlob layout live size).2 ∨
    (registerBlob layout live size).2 + size ≤ snapshot.nextOffset
  gap : snapshot.nextOffset ≤ (registerBlob layout live size).2 →
    gapPages snapshot.nextOffset (registerBlob layout live size).2 ≤ 5

-- The live manager and the copy once a list that did not fit has been given back.
def retryLive (live snapshot : FreeBlobManager) (size : Nat) : FreeBlobManager :=
  let placed := (attemptList layout live snapshot size).1
  (unregisterBlob layout placed.live placed.list.1 placed.list.2).1

def retryCopy (live snapshot : FreeBlobManager) (size : Nat) : FreeBlobManager :=
  let placed := (attemptList layout live snapshot size).1
  (unregisterBlob layout placed.snapshot placed.list.1 placed.list.2).1

def ListSound : Nat → Nat → FreeBlobManager → FreeBlobManager → Prop
  | 0, _, _, _ => True
  | turns + 1, attempt, live, snapshot =>
    AttemptSound layout live snapshot (listSize snapshot attempt) ∧
      (listSize snapshot attempt <
          calculateSerializedSize (attemptList layout live snapshot (listSize snapshot attempt)).1.snapshot →
        ListSound turns (attempt + 1) (retryLive layout live snapshot (listSize snapshot attempt))
          (retryCopy layout live snapshot (listSize snapshot attempt)))

-- Each blob is found again in what the ones before it left, an empty one too.
def TakesBack (m : FreeBlobManager) : List (Nat × Nat) → Prop
  | [] => True
  | (offset, size) :: rest => (UnregisterSound m offset size ∧ (size = 0 → EmptyFound m offset)) ∧
    TakesBack (unregisterBlob layout m offset size).1 rest

-- Every call on the allocator meets its own condition.
def StepSound (m : FreeBlobManager) (deferred : List (Nat × Nat)) (c : Checkpoint) : Prop :=
  let live := (registerAll layout m (payloads c)).1
  RegistersSound layout m (payloads c) ∧
    TakesBack layout live deferred ∧ ∀ snapshot ∈ unregisterAll layout live deferred, ListSound layout 5 0 live snapshot

def decideRegisters : (m : FreeBlobManager) → (sizes : List Nat) → Decidable (RegistersSound layout m sizes)
  | _, [] => .isTrue trivial
  | m, size :: rest =>
    have := decideRegisters (registerBlob layout m size).1 rest
    inferInstanceAs (Decidable (RegisterSound m size ∧ RegistersSound layout (registerBlob layout m size).1 rest))

instance (m sizes) : Decidable (RegistersSound layout m sizes) := decideRegisters layout m sizes

def decideTakesBack : (m : FreeBlobManager) → (blobs : List (Nat × Nat)) → Decidable (TakesBack layout m blobs)
  | _, [] => .isTrue trivial
  | m, (offset, size) :: rest =>
    have := decideTakesBack (unregisterBlob layout m offset size).1 rest
    inferInstanceAs (Decidable ((UnregisterSound m offset size ∧ (size = 0 → EmptyFound m offset)) ∧
      TakesBack layout (unregisterBlob layout m offset size).1 rest))

instance (m blobs) : Decidable (TakesBack layout m blobs) := decideTakesBack layout m blobs

instance (live snapshot size) : Decidable (AttemptSound layout live snapshot size) :=
  decidable_of_iff (12 + listed snapshot.freeSectionsByPage + 128 < 2 ^ 32 ∧ RegisterSound live size ∧
      (registerBlob layout live size).2 + size ≤ pageLimit ∧
      (snapshot.nextOffset ≤ (registerBlob layout live size).2 ∨
        (registerBlob layout live size).2 + size ≤ snapshot.nextOffset) ∧
      (snapshot.nextOffset ≤ (registerBlob layout live size).2 →
        gapPages snapshot.nextOffset (registerBlob layout live size).2 ≤ 5))
    ⟨fun ⟨small, register, limit, side, gap⟩ => ⟨small, register, limit, side, gap⟩,
      fun sound => ⟨sound.small, sound.register, sound.limit, sound.side, sound.gap⟩⟩

def decideList : (turns attempt : Nat) → (live snapshot : FreeBlobManager) →
    Decidable (ListSound layout turns attempt live snapshot)
  | 0, _, _, _ => .isTrue trivial
  | turns + 1, attempt, live, snapshot =>
    have := decideList turns (attempt + 1) (retryLive layout live snapshot (listSize snapshot attempt))
      (retryCopy layout live snapshot (listSize snapshot attempt))
    inferInstanceAs (Decidable (_ ∧ (_ → _)))

instance (turns attempt live snapshot) : Decidable (ListSound layout turns attempt live snapshot) :=
  decideList layout turns attempt live snapshot

instance (m deferred c) : Decidable (StepSound layout m deferred c) := by
  unfold StepSound; infer_instance

/-! ## Metadata and superseded ranges -/

theorem registerAllInvariant {sizes m live} (words : ∀ size ∈ sizes, size < 2 ^ 32) (inv : Invariant ⟨m, live⟩)
    (sound : RegistersSound layout m sizes) :
    Invariant ⟨(registerAll layout m sizes).1, (registerAll layout m sizes).2.reverse ++ live⟩ := by
  induction sizes generalizing m live with
  | nil => exact inv
  | cons size rest ih =>
    obtain ⟨first, later⟩ := List.forall_mem_cons.mp words
    obtain ⟨here, others⟩ := sound
    obtain ⟨well, step, merged⟩ := @performStep layout ⟨m, live⟩ (.registerBlob size) inv.well inv.sound first here
    have kept := ih later ⟨well, merged inv.merged, Ledger.stepSound step inv.sound⟩ others
    simp only [registerAll, List.reverse_cons, List.append_assoc, List.singleton_append]
    exact kept

theorem registerAllFree {sizes m} (words : ∀ size ∈ sizes, size < 2 ^ 32) (well : Well m)
    (sound : RegistersSound layout m sizes) :
    freedBytes (registerAll layout m sizes).2 ⊆ freeBytes m ∧
      freeBytes (registerAll layout m sizes).1 = freeBytes m \ freedBytes (registerAll layout m sizes).2 := by
  induction sizes generalizing m with
  | nil => simp [registerAll, freedBytes]
  | cons size rest ih =>
    obtain ⟨first, later⟩ := List.forall_mem_cons.mp words
    obtain ⟨kept, room, left, _⟩ := registerSpec layout well first sound.1
    obtain ⟨roomRest, leftRest⟩ := ih later kept sound.2
    simp only [registerAll, freedCons]
    refine ⟨Set.union_subset room ?_, ?_⟩
    · exact roomRest.trans (left ▸ Set.sdiff_subset)
    · rw [leftRest, left, Set.sdiff_sdiff]

-- Blobs that are not empty are found again whatever the state.
theorem properTakesBack {deferred} (proper : ∀ blob ∈ deferred, 0 < blob.2 ∧ blob.1 + blob.2 ≤ pageLimit)
    (m : FreeBlobManager) : TakesBack layout m deferred := by
  induction deferred generalizing m with
  | nil => trivial
  | cons blob rest ih =>
    obtain ⟨first, later⟩ := List.forall_mem_cons.mp proper
    exact ⟨⟨⟨first.2, Or.inl first.1⟩, fun empty => absurd first.1 (Nat.not_lt.mpr (Nat.le_of_eq empty))⟩, ih later _⟩

theorem unregisterAllInvariant {deferred m kept} (takes : TakesBack layout m deferred)
    (inv : Invariant ⟨m, deferred ++ kept⟩) :
    ∃ snapshot, unregisterAll layout m deferred = some snapshot ∧ Invariant ⟨snapshot, kept⟩ ∧
      freeBytes snapshot = freeBytes m ∪ freedBytes deferred := by
  induction deferred generalizing m with
  | nil => exact ⟨m, rfl, inv, by simp [freedBytes]⟩
  | cons blob rest ih =>
    obtain ⟨offset, size⟩ := blob
    obtain ⟨⟨sound, found⟩, later⟩ := takes
    have live := inv.sound.unfree _ (List.mem_map_of_mem List.mem_cons_self)
    obtain ⟨_, gained, done, _⟩ := unregisterSpec layout inv.well sound live
    have ok : (unregisterBlob layout m offset size).2 = true := by
      rcases Nat.eq_zero_or_pos size with rfl | proper
      · exact (unregisterEmpty layout inv.well sound).2.2.2.2 (found rfl)
      · exact done proper
    obtain ⟨snapshot, result, after, all⟩ := ih later (releaseInvariant layout inv sound)
    refine ⟨snapshot, ?_, after, ?_⟩
    · unfold unregisterAll
      split
      · rename_i failed
        rw [failed] at ok
        contradiction
      · rename_i left released
        rw [released] at result
        exact result
    · rw [all, gained, Set.union_assoc]
      congr 1
      ext b
      simp [freedBytes, range]

/-! ## The list's own range -/

structure Ready (live snapshot : FreeBlobManager) : Prop where
  wellLive : Well live
  mergedLive : Merged live.freeSectionsByPage
  wellSnapshot : Well snapshot
  mergedSnapshot : Merged snapshot.freeSectionsByPage
  fewer : freeBytes live ⊆ freeBytes snapshot

structure Attempted (live snapshot : FreeBlobManager) (size : Nat) (placed : Placed) (done : Bool) : Prop where
  list : placed.list = ((registerBlob layout live size).2, size)
  after : Well placed.live ∧ Merged placed.live.freeSectionsByPage
  copy : Well placed.snapshot ∧ Merged placed.snapshot.freeSectionsByPage
  room : range placed.list ⊆ freeBytes live
  left : freeBytes placed.live = freeBytes live \ range placed.list
  claimed : done = true → 0 < size ∧ freeBytes placed.snapshot = freeBytes snapshot \ range placed.list
  grown : listed placed.snapshot.freeSectionsByPage ≤
    listed snapshot.freeSectionsByPage + claimGrowth snapshot placed.list.1

theorem attemptSafe {live snapshot size} (ready : Ready live snapshot) (word : size < 2 ^ 32)
    (sound : RegisterSound live size) (limit : (registerBlob layout live size).2 + size ≤ pageLimit) :
    Attempted layout live snapshot size (attemptList layout live snapshot size).1
      (attemptList layout live snapshot size).2 := by
  have width : pageLimit < 2 ^ 64 := by decide
  obtain ⟨wellLive, room, left, tidyLive⟩ := registerSpec layout ready.wellLive word sound
  simp only [attemptList]
  generalize same : (registerBlob layout live size).2 = offset at *
  have place : ClaimSound snapshot offset size := by
    refine Or.inr ⟨by omega, ?_⟩
    split
    · exact Or.inr (by omega)
    · exact Or.inr limit
  obtain ⟨wellSnapshot, _, claimed, tidy⟩ := claimSpec layout ready.wellSnapshot place
  refine ⟨by rw [same], ⟨wellLive, tidyLive.merged ready.mergedLive⟩,
    ⟨wellSnapshot, tidy.merged ready.mergedSnapshot⟩, room, left, fun done => ⟨?_, (claimed done).2⟩, tidy.listed⟩
  refine Nat.pos_of_ne_zero fun empty => ?_
  simp [claimBlob, empty] at done

-- Giving the range back undoes the attempt.
theorem retryReady {live snapshot size placed} (ready : Ready live snapshot)
    (limit : (registerBlob layout live size).2 + size ≤ pageLimit)
    (attempted : Attempted layout live snapshot size placed true) :
    (unregisterBlob layout placed.snapshot placed.list.1 placed.list.2).2 = true ∧
      (unregisterBlob layout placed.live placed.list.1 placed.list.2).2 = true ∧
      Ready (unregisterBlob layout placed.live placed.list.1 placed.list.2).1
        (unregisterBlob layout placed.snapshot placed.list.1 placed.list.2).1 ∧
      freeBytes (unregisterBlob layout placed.live placed.list.1 placed.list.2).1 = freeBytes live ∧
      freeBytes (unregisterBlob layout placed.snapshot placed.list.1 placed.list.2).1 = freeBytes snapshot := by
  obtain ⟨list, ⟨wellLive, mergedLive⟩, ⟨wellSnapshot, mergedSnapshot⟩, room, left, claimed, _⟩ := attempted
  obtain ⟨proper, claimed⟩ := claimed rfl
  rw [list] at room left claimed
  simp only [list]
  generalize (registerBlob layout live size).2 = offset at *
  have sound : ∀ m, UnregisterSound m offset size := fun m => ⟨limit, Or.inl proper⟩
  obtain ⟨wellBack, gainedBack, doneBack, _, mergedBack⟩ := unregisterSpec layout wellLive (sound _)
    (left ▸ Set.disjoint_sdiff_right)
  obtain ⟨wellCopy, gainedCopy, doneCopy, _, mergedCopy⟩ := unregisterSpec layout wellSnapshot (sound _)
    (claimed ▸ Set.disjoint_sdiff_right)
  rw [left, Set.sdiff_union_of_subset room] at gainedBack
  rw [claimed, Set.sdiff_union_of_subset (room.trans ready.fewer)] at gainedCopy
  refine ⟨doneCopy proper, doneBack proper, ⟨wellBack, mergedBack mergedLive, wellCopy,
    mergedCopy mergedSnapshot, ?_⟩, gainedBack, gainedCopy⟩
  rw [gainedBack, gainedCopy]
  exact ready.fewer

structure Described (live snapshot : FreeBlobManager) (placed : Placed) : Prop where
  after : Well placed.live ∧ Merged placed.live.freeSectionsByPage
  copy : Well placed.snapshot ∧ Merged placed.snapshot.freeSectionsByPage
  room : range placed.list ⊆ freeBytes live
  left : freeBytes placed.live = freeBytes live \ range placed.list
  claimed : freeBytes placed.snapshot = freeBytes snapshot \ range placed.list

def ListSafe : Nat → Nat → FreeBlobManager → FreeBlobManager → Prop
  | 0, _, _, _ => True
  | turns + 1, attempt, live, snapshot =>
    (RegisterSound live (listSize snapshot attempt) ∧
      (registerBlob layout live (listSize snapshot attempt)).2 + listSize snapshot attempt ≤ pageLimit) ∧
      (listSize snapshot attempt <
          calculateSerializedSize (attemptList layout live snapshot (listSize snapshot attempt)).1.snapshot →
        ListSafe turns (attempt + 1) (retryLive layout live snapshot (listSize snapshot attempt))
          (retryCopy layout live snapshot (listSize snapshot attempt)))

def decideSafe : (turns attempt : Nat) → (live snapshot : FreeBlobManager) →
    Decidable (ListSafe layout turns attempt live snapshot)
  | 0, _, _, _ => .isTrue trivial
  | turns + 1, attempt, live, snapshot =>
    have := decideSafe turns (attempt + 1) (retryLive layout live snapshot (listSize snapshot attempt))
      (retryCopy layout live snapshot (listSize snapshot attempt))
    inferInstanceAs (Decidable (_ ∧ (_ → _)))

instance (turns attempt live snapshot) : Decidable (ListSafe layout turns attempt live snapshot) :=
  decideSafe layout turns attempt live snapshot

theorem soundSafe {turns attempt live snapshot} (sound : ListSound layout turns attempt live snapshot) :
    ListSafe layout turns attempt live snapshot := by
  induction turns generalizing attempt live snapshot with
  | zero => trivial
  | succ turns ih => exact ⟨⟨sound.1.register, sound.1.limit⟩, fun tight => ih (sound.2 tight)⟩

-- Whatever the attempts end with, free bytes are only taken.
theorem placeSafe {turns attempt live snapshot} (ready : Ready live snapshot)
    (safe : ListSafe layout turns attempt live snapshot) :
    (∀ placed, placeList layout turns attempt live snapshot = .ok placed → Described live snapshot placed) ∧
      ∀ error left, placeList layout turns attempt live snapshot = .error (error, left) →
        Well left ∧ Merged left.freeSectionsByPage ∧ freeBytes left ⊆ freeBytes live := by
  induction turns generalizing attempt live snapshot with
  | zero =>
    refine ⟨fun placed result => ?_, fun error left result => ?_⟩
    · cases result
    · cases result
      exact ⟨ready.wellLive, ready.mergedLive, Set.Subset.rfl⟩
  | succ turns ih =>
    obtain ⟨⟨register, limit⟩, later⟩ := safe
    have word : listSize snapshot attempt < 2 ^ 32 := u32Lt _
    have attempted := attemptSafe layout ready word register limit
    rw [placeList]
    simp only [retryLive, retryCopy] at later
    dsimp only
    generalize attemptList layout live snapshot (listSize snapshot attempt) = result at *
    obtain ⟨placed, done⟩ := result
    dsimp only at *
    cases done with
    | false =>
      refine ⟨fun placed result => ?_, fun error left result => ?_⟩
      · cases result
      · cases result
        exact ⟨attempted.after.1, attempted.after.2, attempted.left ▸ Set.sdiff_subset⟩
    | true =>
      have size : placed.list.2 = listSize snapshot attempt := by rw [attempted.list]
      simp only [Bool.true_eq_false, if_false]
      split
      · refine ⟨fun other result => ?_, fun error left result => ?_⟩
        · cases result
          exact ⟨attempted.after, attempted.copy, attempted.room, attempted.left, (attempted.claimed rfl).2⟩
        · cases result
      · rename_i tight
        obtain ⟨first, second, readyNext, sameLive, sameCopy⟩ := retryReady layout ready limit attempted
        rw [if_neg (by rw [first]; decide), if_neg (by rw [second]; decide)]
        rw [size] at tight
        obtain ⟨ok, failed⟩ := ih readyNext (later (not_le.mp tight))
        rw [sameLive] at failed
        refine ⟨fun last result => ?_, failed⟩
        obtain ⟨after, copy, room, left, claimed⟩ := ok last result
        exact ⟨after, copy, sameLive ▸ room, sameLive ▸ left, sameCopy ▸ claimed⟩

theorem attemptDone {live snapshot size} (ready : Ready live snapshot) (proper : 0 < size)
    (word : size < 2 ^ 32) (sound : AttemptSound layout live snapshot size) :
    (attemptList layout live snapshot size).2 = true ∧
      claimGrowth snapshot (attemptList layout live snapshot size).1.list.1 ≤ 120 := by
  obtain ⟨_, room, _, _⟩ := registerSpec layout ready.wellLive word sound.register
  have side := sound.side
  have gap := sound.gap
  refine ⟨?_, ?_⟩
  · exact claimDone layout ready.wellSnapshot ready.mergedSnapshot proper sound.limit
      (room.trans ready.fewer) side
  · unfold claimGrowth
    split
    · rename_i behind
      have pages := gap behind
      simp only [attemptList]
      omega
    · omega

theorem placeDone {turns attempt live snapshot} (count : turns + attempt = 5) (some : 0 < turns)
    (ready : Ready live snapshot) (sound : ListSound layout turns attempt live snapshot) :
    ∃ placed, placeList layout turns attempt live snapshot = .ok placed ∧
      (serializePayload placed.snapshot).length ≤ placed.list.2 := by
  induction turns generalizing attempt live snapshot with
  | zero => omega
  | succ turns ih =>
    obtain ⟨here, later⟩ := sound
    have small := here.small
    have size : listSize snapshot attempt = 12 + listed snapshot.freeSectionsByPage + 32 * attempt := by
      unfold listSize
      rw [calculateListed, u32Small (by omega : 12 + listed snapshot.freeSectionsByPage < 2 ^ 32),
        u32Small (by omega)]
    obtain ⟨done, growth⟩ := attemptDone layout ready (by omega) (by omega) here
    have limit := here.limit
    have attempted := attemptSafe layout ready (by omega) here.register limit
    rw [placeList]
    simp only [retryLive, retryCopy] at later
    dsimp only
    generalize attemptList layout live snapshot (listSize snapshot attempt) = result at *
    obtain ⟨placed, ok⟩ := result
    dsimp only at *
    subst done
    have grown := attempted.grown
    have length : calculateSerializedSize placed.snapshot =
        12 + listed placed.snapshot.freeSectionsByPage := by
      rw [calculateListed, u32Small (by omega)]
    have list : placed.list.2 = listSize snapshot attempt := by rw [attempted.list]
    simp only [Bool.true_eq_false, if_false]
    split
    · rename_i fits
      refine ⟨placed, rfl, ?_⟩
      rw [serializePayloadLength, ← length]
      exact fits
    · rename_i tight
      obtain ⟨first, second, readyNext, _, _⟩ := retryReady layout ready limit attempted
      rw [if_neg (by rw [first]; decide), if_neg (by rw [second]; decide)]
      rw [list] at tight
      exact ih (by omega) (by omega) readyNext (later (not_le.mp tight))

/-! ## The whole step -/

structure Exact (live : FreeBlobManager) (deferred : List (Nat × Nat)) (placed : Placed) : Prop where
  room : range placed.list ⊆ freeBytes live
  left : freeBytes placed.live = freeBytes live \ range placed.list
  snapshot : freeBytes placed.snapshot = (freeBytes live ∪ freedBytes deferred) \ range placed.list
  fits : (serializePayload placed.snapshot).length ≤ placed.list.2

theorem allocatorExact {m live deferred kept c} (inv : Invariant ⟨m, live⟩) (held : live.Perm (deferred ++ kept))
    (words : ∀ size ∈ payloads c, size < 2 ^ 32) (sound : StepSound layout m deferred c) :
    ∃ placed, writeIndexAllocator layout m deferred c = .ok ((registerAll layout m (payloads c)).2, placed) ∧
      Exact (registerAll layout m (payloads c)).1 deferred placed := by
  obtain ⟨registers, takes, list⟩ := sound
  have payload := registerAllInvariant layout words inv registers
  have sorted := permInvariant ((held.append_left _).trans (List.perm_append_comm_assoc _ deferred kept)) payload
  obtain ⟨snapshot, released, after, all⟩ := unregisterAllInvariant layout takes sorted
  have ready : Ready (registerAll layout m (payloads c)).1 snapshot :=
    ⟨payload.well, payload.merged, after.well, after.merged, all ▸ Set.subset_union_left⟩
  have listed := list snapshot released
  obtain ⟨placed, result, fits⟩ := placeDone layout rfl (by omega) ready listed
  have described := (placeSafe layout ready (soundSafe layout listed)).1 placed result
  refine ⟨placed, ?_, described.room, described.left, ?_, fits⟩
  · simp only [writeIndexAllocator, released, result]
    rfl
  · rw [described.claimed, all]

-- No perf was written, and the residency table stands between its offset and the free list.
def secondCheckpoint : List Call :=
  [.registerBlob 128, .registerBlob 100, .registerBlob 8, .registerBlob 0, .registerBlob 28, .registerBlob 12,
    .registerBlob 1000, .registerBlob 64]

def oldRanges : List (Nat × Nat) := [(276, 1000), (128, 100), (264, 12), (228, 8), (236, 0), (236, 28)]

def atCheckpoint (calls : List Call) : World :=
  calls.foldl (perform (appendLayout Nat (List Section))) BlobRuns.start

-- The first checkpoint of a dataset without stats: both empty blobs are at the list's offset.
def withoutStats : List Call :=
  [.registerBlob 128, .registerBlob 100, .registerBlob 0, .registerBlob 0, .registerBlob 12]

end Dewfall.BlobIndexRuns
