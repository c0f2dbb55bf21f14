import Dewfall.Core.PackedFile
import Dewfall.Core.BlobIndexRuns
import Mathlib.Data.List.Pairwise

/-! What the last committed superblock refers to stays as it was written, through later allocations,
checkpoints that fail at any write, and crashes. The allocator's own condition is taken call by call;
a torn superblock and callers that free what they still refer to are left out. -/
namespace Dewfall.PackedFileRuns
open General General.Transition BlobManager BlobFreeSpace BlobRegister BlobRelease BlobIndex PackedFile
open BlobRuns (Invariant range permInvariant subpermInvariant releaseInvariant performStep runInvariant)
open BlobIndexRuns (RegistersSound ListSafe Ready)

variable (layout : Layout Nat (List Section))

abbrev blobRange (b : Blob) : Set Nat := range b.location

def Holds (f : File) (b : Blob) : Prop := ∀ p ∈ blobRange b, f p = some b.id

def places (blobs : List Blob) : List (Nat × Nat) := blobs.map Blob.location

/-! ## The condition -/

def RollbackSound (m : FreeBlobManager) : List Blob → Prop
  | [] => True
  | b :: rest => UnregisterSound m b.offset b.size ∧ RollbackSound (unregisterBlob layout m b.offset b.size).1 rest

def CheckpointSound (m : FreeBlobManager) (deferred : List Blob) (c : Checkpoint) : Prop :=
  let live := (registerAll layout m (payloads c)).1
  RegistersSound layout m (payloads c) ∧ ∀ snapshot ∈ unregisterAll layout live (places deferred),
    (∀ b ∈ deferred, 0 < b.size ∧ b.offset + b.size ≤ pageLimit) ∧ ListSafe layout 5 0 live snapshot

def decideRollback : (m : FreeBlobManager) → (blobs : List Blob) → Decidable (RollbackSound layout m blobs)
  | _, [] => .isTrue trivial
  | m, b :: rest =>
    have := decideRollback (unregisterBlob layout m b.offset b.size).1 rest
    inferInstanceAs (Decidable (UnregisterSound m b.offset b.size ∧
      RollbackSound layout (unregisterBlob layout m b.offset b.size).1 rest))

instance (m blobs) : Decidable (RollbackSound layout m blobs) := decideRollback layout m blobs

-- Every call on the allocator meets its own condition; where the copy takes back all that is to be
-- freed, none of it is empty.
def StepSound (w : World) : Action → Prop
  | .allocateBlob size => RegisterSound w.manager size
  | .writeIndex freed _ _ c => CheckpointSound layout w.manager (freed ++ w.old.filter fun b => 0 < b.offset) c
  | .writeMetadata _ ok | .writeSuperblock ok => ok = false →
      ∀ f ∈ w.flight, RollbackSound layout w.manager (f.next.metadata ++ [f.next.freeList])
  | _ => True

instance (w a) : Decidable (StepSound layout w a) := by
  apply PackedFile.Action.casesOn (motive := fun a => Decidable (StepSound layout w a)) a
  all_goals
    intros
    dsimp only [StepSound, CheckpointSound]
    infer_instance

/-! ## Bytes -/

theorem holdsWrite {f : File} {b r : Blob} {count} (holds : Holds f r) (within : count ≤ b.size)
    (apart : b = r ∨ Disjoint (blobRange b) (blobRange r)) : Holds (write f b count) r := by
  intro p inside
  unfold write
  split
  · rename_i hit
    rcases apart with rfl | apart
    · rfl
    · have own : p ∈ blobRange b := ⟨hit.1, hit.2.trans_le (Nat.add_le_add_left within _)⟩
      exact absurd inside (Set.disjoint_left.mp apart own)
  · exact holds p inside

theorem holdsWritten (f : File) (b : Blob) : Holds (write f b b.size) b :=
  fun _ inside => if_pos inside

theorem apartBlobs {m blobs b r} (inv : Invariant ⟨m, places blobs⟩) (first : b ∈ blobs) (second : r ∈ blobs) :
    b = r ∨ Disjoint (blobRange b) (blobRange r) := by
  by_cases same : b = r
  · exact Or.inl same
  · have pairs : ((blobs.map Blob.location).map range).Pairwise Disjoint := inv.sound.apart
    rw [List.pairwise_map, List.pairwise_map] at pairs
    have both : Std.Symm fun x y => Disjoint (blobRange x) (blobRange y) := ⟨fun _ _ h => h.symm⟩
    exact Or.inr (pairs.forall first second same)

/-! ## The invariant -/

-- The superblock's own range and what the last committed superblock refers to.
def base (w : World) : List Blob := index :: (w.superblock.map references).getD []

structure Committed (w : World) (sb : Superblock) : Prop where
  written : references sb ⊆ w.written
  snapshot : Invariant ⟨sb.snapshot, places (index :: references sb)⟩

structure InFlight (w : World) (f : Flight) : Prop where
  apart : (own f.next ++ base w).Subperm w.allocated
  there : (f.deferred ++ index :: references f.next).Subperm w.allocated
  left : f.left ⊆ own f.next
  written : ∀ b ∈ references f.next, b ∈ f.left ∨ b ∈ w.written
  snapshot : Invariant ⟨f.next.snapshot, places (index :: references f.next)⟩
  proper : ∀ b ∈ f.deferred, 0 < b.size ∧ b.offset + b.size ≤ pageLimit

structure Sound (w : World) : Prop where
  ledger : Invariant ⟨w.manager, places w.allocated⟩
  known : w.written ⊆ w.allocated
  holds : ∀ b ∈ w.written, Holds w.file b
  old : w.old.Sublist (owned w)
  kept : (base w).Subperm w.allocated
  committed : ∀ sb ∈ w.superblock, Committed w sb
  flight : ∀ f ∈ w.flight, InFlight w f

theorem subpermPlaces {blobs blobs' : List Blob} (fewer : blobs'.Subperm blobs) :
    (places blobs').Subperm (places blobs) := by
  obtain ⟨middle, perm, sub⟩ := fewer
  exact ⟨places middle, perm.map _, sub.map _⟩

theorem permDiff {t l : List Blob} (fewer : t.Subperm l) : l.Perm (t ++ l.diff t) :=
  (List.subperm_append_diff_self_of_count_le (List.subperm_ext_iff.mp fewer)).symm

theorem subpermDiff {t u l : List Blob} (fewer : (t ++ u).Subperm l) : u.Subperm (l.diff t) := by
  have first : t.Subperm l := (List.sublist_append_left t u).subperm.trans fewer
  exact (List.subperm_append_left t).mp (fewer.trans (permDiff first).subperm)

theorem supersededPerm (sb : Superblock) : (superseded sb).Perm (sb.treeRegistry :: own sb) := by
  have parts : sb.metadata.take 1 ++ ((sb.metadata.drop 1).take 2 ++ sb.metadata.drop 3) = sb.metadata := by
    rw [show sb.metadata.drop 3 = (sb.metadata.drop 1).drop 2 by rw [List.drop_drop], List.take_append_drop,
      List.take_append_drop]
  have order : (superseded sb).Perm
      (sb.treeRegistry :: sb.freeList :: (sb.metadata.take 1 ++ ((sb.metadata.drop 1).take 2 ++ sb.metadata.drop 3))) := by
    unfold superseded
    refine List.perm_middle.trans (List.Perm.cons _ ?_)
    rw [List.append_assoc, List.cons_append]
    exact List.perm_middle
  rwa [parts] at order

/-! ## Steps -/

theorem committedMono {w w' : World} {sb} (committed : Committed w sb) (more : references sb ⊆ w'.written) :
    Committed w' sb := ⟨more, committed.snapshot⟩

theorem inFlightMono {w w' : World} {f} (flight : InFlight w f) (same : w'.superblock = w.superblock)
    (more : w.allocated.Subperm w'.allocated) (written : w.written ⊆ w'.written) : InFlight w' f := by
  have sameBase : base w' = base w := by unfold base; rw [same]
  refine ⟨?_, flight.there.trans more, flight.left, fun b mem => ?_, flight.snapshot, flight.proper⟩
  · rw [sameBase]
    exact flight.apart.trans more
  · exact (flight.written b mem).imp_right fun here => written here

theorem startSound (file : File) : Sound { start layout with file := file } := by
  have empty : Invariant ⟨initial, []⟩ := (runInvariant layout).initial _ rfl
  have fresh : RegisterSound initial serializedIndexSize := by decide
  obtain ⟨well, step, merged⟩ := @performStep layout ⟨initial, []⟩ (.registerBlob serializedIndexSize)
    empty.well empty.sound (by decide) fresh
  refine ⟨⟨well, merged empty.merged, Ledger.stepSound step empty.sound⟩, by simp [start], by simp [start], List.Sublist.refl [],
    List.Subperm.refl _, by simp [start], by simp [start]⟩

theorem allocateSound {w size} (sound : Sound w) (word : size < 2 ^ 32) (fits : RegisterSound w.manager size) :
    Sound (allocateBlob layout w size) := by
  obtain ⟨well, step, merged⟩ := @performStep layout ⟨w.manager, places w.allocated⟩ (.registerBlob size)
    sound.ledger.well sound.ledger.sound word fits
  have more : w.allocated.Subperm (allocateBlob layout w size).allocated := (List.sublist_cons_self _ _).subperm
  refine ⟨⟨well, merged sound.ledger.merged, Ledger.stepSound step sound.ledger.sound⟩, ?_, sound.holds,
    sound.old, sound.kept.trans more, ?_, ?_⟩
  · exact List.Subset.trans sound.known more.subset
  · exact fun sb here => committedMono (sound.committed sb here) (sound.committed sb here).written
  · exact fun f here => inFlightMono (sound.flight f here) rfl more (List.Subset.refl _)

theorem writeSound {w b count} (sound : Sound w) (mem : b ∈ w.allocated) (within : count ≤ b.size) :
    Sound (writeBlob w b count) := by
  have written : w.written ⊆ (writeBlob w b count).written := by
    unfold writeBlob
    dsimp only
    split
    · exact List.subset_cons_self _ _
    · exact List.Subset.refl _
  have either : ∀ r ∈ (writeBlob w b count).written, r ∈ w.written ∨ r = b ∧ count = b.size := by
    intro r here
    unfold writeBlob at here
    dsimp only at here
    split at here
    · rename_i whole
      exact (List.mem_cons.mp here).symm.imp_right fun same => ⟨same, whole⟩
    · exact Or.inl here
  refine ⟨sound.ledger, fun r here => ?_, fun r here => ?_, sound.old, sound.kept, ?_, ?_⟩
  · rcases either r here with old | ⟨rfl, _⟩
    · exact sound.known old
    · exact mem
  · rcases either r here with old | ⟨rfl, rfl⟩
    · exact holdsWrite (sound.holds r old) within (apartBlobs sound.ledger mem (sound.known old))
    · exact holdsWritten w.file r
  · exact fun sb here => committedMono (sound.committed sb here) (List.Subset.trans (sound.committed sb here).written written)
  · exact fun f here => inFlightMono (sound.flight f here) rfl (List.Subperm.refl _) written

theorem releaseAllInvariant {blobs m live} (inv : Invariant ⟨m, places blobs ++ live⟩)
    (sound : RollbackSound layout m blobs) : Invariant ⟨releaseAll layout m blobs, live⟩ := by
  induction blobs generalizing m with
  | nil => exact inv
  | cons b rest ih => exact ih (releaseInvariant layout inv sound.1) sound.2

theorem releaseAllFree {blobs m live} (inv : Invariant ⟨m, places blobs ++ live⟩)
    (sound : RollbackSound layout m blobs) :
    freeBytes (releaseAll layout m blobs) = freeBytes m ∪ BlobIndexRuns.freedBytes (places blobs) := by
  induction blobs generalizing m with
  | nil => simp [releaseAll, places, BlobIndexRuns.freedBytes]
  | cons b rest ih =>
    have own := inv.sound.unfree _ (List.mem_map_of_mem List.mem_cons_self)
    obtain ⟨_, gained, _⟩ := unregisterSpec layout inv.well sound.1 own
    refine (ih (releaseInvariant layout inv sound.1) sound.2).trans ?_
    rw [gained, places, List.map_cons, BlobIndexRuns.freedCons, Set.union_assoc]
    rfl

theorem rollbackSound {w f} (sound : Sound w) (flight : w.flight = some f)
    (release : RollbackSound layout w.manager (f.next.metadata ++ [f.next.freeList])) :
    Sound (rollbackMetadata layout w f.next) := by
  have going := sound.flight f flight
  have ours : (own f.next).Subperm w.allocated := (List.sublist_append_left _ _).subperm.trans going.apart
  have order : w.allocated.Perm ((f.next.metadata ++ [f.next.freeList]) ++ w.allocated.diff (own f.next)) :=
    (permDiff ours).trans ((List.perm_append_singleton _ _).symm.append_right _)
  have ledger := permInvariant (order.map Blob.location) sound.ledger
  rw [List.map_append] at ledger
  have kept : (base w).Subperm (w.allocated.diff (own f.next)) := subpermDiff going.apart
  refine ⟨releaseAllInvariant layout ledger release, fun b mem => ?_, fun b mem => ?_, sound.old, kept, ?_, ?_⟩
  · exact of_decide_eq_true (List.mem_filter.mp mem).2
  · exact sound.holds b (List.mem_filter.mp mem).1
  · intro sb here
    refine committedMono (sound.committed sb here) fun b mem => List.mem_filter.mpr ⟨?_, ?_⟩
    · exact (sound.committed sb here).written mem
    · have inBase : b ∈ base w := by
        have there : w.superblock = some sb := here
        rw [base, there]
        exact List.mem_cons_of_mem _ mem
      exact decide_eq_true (kept.subset inBase)
  · intro f here
    cases here

theorem metadataSound {w next deferred b left count ok} (sound : Sound w)
    (flight : w.flight = some ⟨next, deferred, b :: left⟩) (within : count ≤ b.size)
    (whole : ok = true → count = b.size)
    (release : ok = false → RollbackSound layout w.manager (next.metadata ++ [next.freeList])) :
    Sound (writeMetadata layout w ⟨next, deferred, b :: left⟩ b left count ok) := by
  have going := sound.flight _ flight
  have mine : b ∈ w.allocated :=
    going.apart.subset (List.mem_append_left _ (going.left List.mem_cons_self))
  have after := writeSound sound mine within
  cases ok with
  | false => exact rollbackSound layout after flight (release rfl)
  | true =>
    have on := after.flight _ flight
    refine ⟨after.ledger, after.known, after.holds, after.old, after.kept, ?_, ?_⟩
    · exact fun sb here => committedMono (after.committed sb here) (after.committed sb here).written
    · intro f here
      cases here
      refine ⟨on.apart, on.there, fun r mem => on.left (List.mem_cons_of_mem _ mem), fun r mem => ?_, on.snapshot,
        on.proper⟩
      rcases on.written r mem with pending | done
      · rcases List.mem_cons.mp pending with rfl | later
        · right
          change r ∈ (writeBlob w r count).written
          rw [writeBlob, if_pos (whole rfl)]
          exact List.mem_cons_self
        · exact Or.inl later
      · exact Or.inr done

theorem returnAllDone {blobs m after} (done : unregisterAll layout m (places blobs) = some after) :
    returnAll layout m blobs = (after, []) := by
  induction blobs generalizing m with
  | nil =>
    cases done
    rfl
  | cons b rest ih =>
    simp only [places, List.map_cons, Blob.location, unregisterAll] at done
    split at done
    · contradiction
    · rename_i left released
      have step : returnAll layout m (b :: rest) = returnAll layout left rest := by
        simp only [returnAll, released]
      exact step.trans (ih done)

theorem deferredReturned {w next deferred} (sound : Sound w) (flight : w.flight = some ⟨next, deferred, []⟩) :
    ∃ after, returnAll layout w.manager deferred = (after, []) ∧
      Invariant ⟨after, places (w.allocated.diff deferred)⟩ := by
  have going := sound.flight _ flight
  have those : deferred.Subperm w.allocated := (List.sublist_append_left _ _).subperm.trans going.there
  have ledger := permInvariant ((permDiff those).map Blob.location) sound.ledger
  rw [List.map_append] at ledger
  have proper : ∀ l ∈ places deferred, 0 < l.2 ∧ l.1 + l.2 ≤ pageLimit := by
    intro l mem
    obtain ⟨b, here, rfl⟩ := List.mem_map.mp mem
    exact going.proper b here
  obtain ⟨after, released, inv, _⟩ := BlobIndexRuns.unregisterAllInvariant layout
    (BlobIndexRuns.properTakesBack layout proper w.manager) ledger
  exact ⟨after, returnAllDone layout released, inv⟩

theorem commitSound {w next deferred} (sound : Sound w) (flight : w.flight = some ⟨next, deferred, []⟩) :
    Sound (writeSuperblock layout w ⟨next, deferred, []⟩ true) := by
  have going := sound.flight _ flight
  obtain ⟨after, returned, inv⟩ := deferredReturned layout sound flight
  have kept : (index :: references next).Subperm (w.allocated.diff deferred) := subpermDiff going.there
  simp only [writeSuperblock, returned, List.length_nil, Nat.sub_zero, List.take_length, if_true]
  refine ⟨inv, fun b mem => ?_, fun b mem => ?_, List.Sublist.refl _, kept, ?_, ?_⟩
  · exact of_decide_eq_true (List.mem_filter.mp mem).2
  · exact sound.holds b (List.mem_filter.mp mem).1
  · intro sb here
    cases here
    refine ⟨fun b mem => List.mem_filter.mpr ⟨?_, ?_⟩, going.snapshot⟩
    · exact (going.written b mem).resolve_left List.not_mem_nil
    · exact decide_eq_true (kept.subset (List.mem_cons_of_mem _ mem))
  · intro f here
    cases here

theorem crashSound {w} (sound : Sound w) : Sound (crash layout w) := by
  unfold crash
  split
  · exact startSound layout w.file
  · rename_i sb there
    have committed := sound.committed sb there
    refine ⟨committed.snapshot, List.subset_cons_self _ _, fun b mem => ?_, ?_, ?_, ?_, ?_⟩
    · exact sound.holds b (committed.written mem)
    · simp only [owned, there]
      exact reopenedSublist sb
    · simp only [base, there]
      exact List.Subperm.refl _
    · intro other here
      simp only [there] at here
      cases here
      exact ⟨List.Subset.refl _, committed.snapshot⟩
    · intro f here
      cases here

/-! ## A checkpoint's allocator block -/

theorem grantInvariant {m m' l live} (inv : Invariant ⟨m, live⟩)
    (after : Well m' ∧ Merged m'.freeSectionsByPage) (room : range l ⊆ freeBytes m)
    (left : freeBytes m' = freeBytes m \ range l) : Invariant ⟨m', l :: live⟩ :=
  ⟨after.1, after.2, Ledger.stepSound (.grant room left.subset) inv.sound⟩

theorem loseInvariant {m m' live} (inv : Invariant ⟨m, live⟩) (after : Well m' ∧ Merged m'.freeSectionsByPage)
    (fewer : freeBytes m' ⊆ freeBytes m) : Invariant ⟨m', live⟩ :=
  ⟨after.1, after.2, Ledger.stepSound (.lose fewer) inv.sound⟩

theorem namedPlaces (first : Nat) (locations : List (Nat × Nat)) : places (named first locations) = locations := by
  unfold places named
  rw [List.map_map]
  induction locations generalizing first with
  | nil => rfl
  | cons l rest ih => rw [List.zipIdx_cons, List.map_cons, ih (first + 1)]; rfl

theorem ownedKept {w} (sound : Sound w) : (index :: owned w).Subperm w.allocated := by
  refine List.Subperm.trans ?_ sound.kept
  rw [owned, base]
  refine (List.subperm_cons index).mpr ?_
  cases w.superblock with
  | none => exact List.Subperm.refl _
  | some sb =>
    have order : (references sb).Perm ((sb.treeRegistry :: own sb) ++ sb.reachable) := by
      rw [List.cons_append]
      exact List.perm_middle
    refine (supersededPerm sb).subperm.trans (List.Subperm.trans ?_ order.symm.subperm)
    exact (List.sublist_append_left _ _).subperm

theorem handedApart {w freed treeRegistry reachable c} (sound : Sound w)
    (handed : Handed w freed treeRegistry reachable c) :
    ((freed ++ w.old.filter fun b => 0 < b.offset) ++ index :: treeRegistry :: reachable).Subperm w.allocated := by
  have all : ((index :: w.old) ++ (freed ++ treeRegistry :: reachable)).Subperm w.allocated := by
    refine (((sound.old.cons_cons index).append_right _).subperm).trans ?_
    refine List.Subperm.trans ?_ (permDiff (ownedKept sound)).symm.subperm
    exact (List.subperm_append_left _).mpr handed.distinct
  refine List.Subperm.trans ?_ all
  have fewer : ((freed ++ w.old.filter fun b => 0 < b.offset) ++ index :: treeRegistry :: reachable).Sublist
      ((freed ++ w.old) ++ index :: treeRegistry :: reachable) :=
    (List.filter_sublist.append_left freed).append_right _
  refine fewer.subperm.trans (List.Perm.subperm ?_)
  calc (freed ++ w.old) ++ index :: treeRegistry :: reachable
    _ = freed ++ (w.old ++ ([index] ++ (treeRegistry :: reachable))) := by simp
    _ |>.Perm (freed ++ ((index :: w.old) ++ (treeRegistry :: reachable))) := by
      refine List.Perm.append_left freed ?_
      rw [← List.append_assoc]
      exact List.Perm.append_right _ (List.perm_append_singleton index w.old)
    _ |>.Perm ((index :: w.old) ++ (freed ++ treeRegistry :: reachable)) := List.perm_append_comm_assoc _ _ _

structure Placement (w : World) (deferred : List Blob) (placed : Placed) (locations : List (Nat × Nat)) : Prop where
  live : Invariant ⟨placed.live, placed.list :: (locations.reverse ++ places w.allocated)⟩
  snapshot : Invariant ⟨placed.snapshot, placed.list :: (locations.reverse ++ places (w.allocated.diff deferred))⟩
  proper : ∀ b ∈ deferred, 0 < b.size ∧ b.offset + b.size ≤ pageLimit

theorem placementSafe {w deferred c} (ledger : Invariant ⟨w.manager, places w.allocated⟩)
    (those : deferred.Subperm w.allocated) (words : ∀ size ∈ payloads c, size < 2 ^ 32)
    (safe : CheckpointSound layout w.manager deferred c) :
    (∀ error left, writeIndexAllocator layout w.manager (places deferred) c = .error (error, left) →
        Invariant ⟨left, places w.allocated⟩) ∧
      ∀ locations placed, writeIndexAllocator layout w.manager (places deferred) c = .ok (locations, placed) →
        Placement w deferred placed locations := by
  obtain ⟨registers, block⟩ := safe
  have payload := BlobIndexRuns.registerAllInvariant layout words ledger registers
  unfold writeIndexAllocator
  dsimp only
  generalize registerAll layout w.manager (payloads c) = registered at *
  obtain ⟨live, locations⟩ := registered
  have fewer : (places w.allocated).Subperm (locations.reverse ++ places w.allocated) :=
    (List.sublist_append_right _ _).subperm
  split
  · refine ⟨fun error left result => ?_, fun _ _ result => ?_⟩
    · cases result
      exact subpermInvariant fewer payload
    · cases result
  · rename_i snapshot released
    obtain ⟨proper, list⟩ := block snapshot released
    have properPlaces : ∀ l ∈ places deferred, 0 < l.2 ∧ l.1 + l.2 ≤ pageLimit := by
      intro l mem
      obtain ⟨b, here, rfl⟩ := List.mem_map.mp mem
      exact proper b here
    have split : (places w.allocated).Perm (places deferred ++ places (w.allocated.diff deferred)) := by
      have order := (permDiff those).map Blob.location
      rwa [List.map_append] at order
    have sorted := permInvariant ((split.append_left _).trans (List.perm_append_comm_assoc _ _ _)) payload
    obtain ⟨copy, same, after, all⟩ := BlobIndexRuns.unregisterAllInvariant layout
      (BlobIndexRuns.properTakesBack layout properPlaces live) sorted
    obtain rfl : snapshot = copy := Option.some.inj (released.symm.trans same)
    have ready : Ready live snapshot :=
      ⟨payload.well, payload.merged, after.well, after.merged, all ▸ Set.subset_union_left⟩
    obtain ⟨ok, failed⟩ := BlobIndexRuns.placeSafe layout ready list
    refine ⟨fun error left result => ?_, fun locs placed result => ?_⟩
    · cases outcome : placeList layout 5 0 live snapshot with
      | ok placed =>
        rw [outcome] at result
        cases result
      | error e =>
        rw [outcome] at result
        cases result
        obtain ⟨well, merged, less⟩ := failed _ _ outcome
        exact subpermInvariant fewer (loseInvariant payload ⟨well, merged⟩ less)
    · cases outcome : placeList layout 5 0 live snapshot with
      | error e =>
        rw [outcome] at result
        cases result
      | ok there =>
        rw [outcome] at result
        cases result
        obtain ⟨wellLive, wellCopy, room, left, claimed⟩ := ok _ outcome
        exact ⟨grantInvariant payload wellLive room left,
          grantInvariant after wellCopy (room.trans ready.fewer) claimed, proper⟩

theorem checkpointSound {w freed treeRegistry reachable c} (sound : Sound w) (idle : w.flight = none)
    (handed : Handed w freed treeRegistry reachable c)
    (safe : CheckpointSound layout w.manager (freed ++ w.old.filter fun b => 0 < b.offset) c) :
    Sound (writeIndex layout w freed treeRegistry reachable c) := by
  have apart := handedApart sound handed
  unfold writeIndex
  dsimp only
  generalize (freed ++ w.old.filter fun b => 0 < b.offset) = deferred at *
  have those : deferred.Subperm w.allocated := (List.sublist_append_left _ _).subperm.trans apart
  obtain ⟨failed, ok⟩ := placementSafe layout sound.ledger those handed.words safe
  split
  · rename_i error left outcome
    refine ⟨failed error left outcome, sound.known, sound.holds, sound.old, sound.kept, ?_, ?_⟩
    · exact fun sb here => committedMono (sound.committed sb here) (sound.committed sb here).written
    · intro f here
      rw [show _ = none from idle] at here
      cases here
  · rename_i locations placed outcome
    obtain ⟨live, snapshot, proper⟩ := ok locations placed outcome
    generalize same : (⟨⟨w.nextId, placed.list.1, placed.list.2⟩, named (w.nextId + 1) locations, treeRegistry,
      reachable, placed.snapshot⟩ : Superblock) = next at *
    have ours : places (own next) = placed.list :: locations := by
      rw [← same]
      exact congrArg (placed.list :: ·) (namedPlaces (w.nextId + 1) locations)
    have placesPerm : ∀ l : List (Nat × Nat),
        (placed.list :: (locations.reverse ++ l)).Perm (places (own next) ++ l) := by
      intro l
      rw [ours]
      exact ((List.reverse_perm locations).append_right l).cons _
    have refs : references next = own next ++ treeRegistry :: reachable := by rw [← same]; rfl
    have more : w.allocated.Subperm (own next ++ w.allocated) := (List.sublist_append_right _ _).subperm
    refine ⟨?_, List.Subset.trans sound.known more.subset, sound.holds, sound.old, sound.kept.trans more, ?_, ?_⟩
    · have ledger := permInvariant (placesPerm _) live
      rwa [places, places, ← List.map_append] at ledger
    · exact fun sb here => committedMono (sound.committed sb here) (sound.committed sb here).written
    · intro f here
      cases here
      refine ⟨(List.subperm_append_left _).mpr sound.kept, ?_, List.Subset.refl _, fun b mem => ?_, ?_, proper⟩
      · have order : (deferred ++ index :: references next).Perm
            (own next ++ (deferred ++ index :: treeRegistry :: reachable)) := by
          rw [refs, ← List.cons_append]
          refine (List.Perm.append_left deferred ?_).trans (List.perm_append_comm_assoc _ _ _)
          exact List.perm_middle.symm
        exact order.subperm.trans ((List.subperm_append_left _).mpr apart)
      · rw [refs] at mem
        exact (List.mem_append.mp mem).imp_right (handed.written b)
      · have rest : (index :: treeRegistry :: reachable).Subperm (w.allocated.diff deferred) := subpermDiff apart
        have copy := permInvariant (placesPerm _) snapshot
        rw [places, places, ← List.map_append, show placed.snapshot = next.snapshot by rw [← same]] at copy
        refine subpermInvariant (subpermPlaces ?_) copy
        have order : (index :: references next).Perm (own next ++ index :: treeRegistry :: reachable) := by
          rw [refs]
          exact List.perm_middle.symm
        exact order.subperm.trans ((List.subperm_append_left _).mpr rest)

theorem performSound {w a} (sound : Sound w) (step : StepSound layout w a) (allowed : Allowed w a) :
    Sound (perform layout w a) := by
  cases a with
  | allocateBlob size => exact allocateSound layout sound allowed.2 step
  | writeBlob blob count => exact writeSound sound allowed.1 allowed.2
  | writeIndex freed treeRegistry reachable c =>
    exact checkpointSound layout sound (Option.isNone_iff_eq_none.mp allowed.1) allowed.2 step
  | writeMetadata count ok =>
    unfold perform
    dsimp only
    split
    · rename_i next deferred b left flight
      obtain ⟨within, whole⟩ := allowed _ flight b rfl
      exact metadataSound layout sound flight within whole fun failed => step failed _ flight
    · exact sound
  | writeSuperblock ok =>
    unfold perform
    dsimp only
    split
    · rename_i next deferred flight
      cases ok with
      | true => exact commitSound layout sound flight
      | false => exact rollbackSound layout sound flight (step rfl _ flight)
    · exact sound
  | crash => exact crashSound layout sound

theorem soundInductive : Inductive ((system layout).under (StepSound layout)) Sound := by
  constructor
  · intro w first
    cases first
    exact startSound layout _
  · intro w a after sound step
    obtain ⟨cond, allowed, rfl⟩ := step
    exact performSound layout sound cond allowed

/-! ## Intact bytes -/

-- What a new blob may not overlap: the committed references and the checkpoint in flight.
def guarded (w : World) : List Blob :=
  (w.superblock.map references).getD [] ++ (w.flight.map fun f => own f.next).getD []

structure Intact (w : World) : Prop where
  bytes : ∀ sb ∈ w.superblock, ∀ b ∈ references sb, Holds w.file b
  apart : ∀ size < 2 ^ 32, RegisterSound w.manager size → ∀ b ∈ guarded w,
    Disjoint (blobBytes (registerBlob layout w.manager size).2 size) (blobRange b)

theorem soundIntact {w} (sound : Sound w) : Intact layout w := by
  refine ⟨fun sb here b mem => sound.holds b ((sound.committed sb here).written mem), ?_⟩
  intro size word fits b mem
  have live : b ∈ w.allocated := by
    rcases List.mem_append.mp mem with committed | own
    · exact sound.kept.subset (List.mem_cons_of_mem _ committed)
    · cases flight : w.flight with
      | none =>
        rw [flight] at own
        cases own
      | some f =>
        rw [flight] at own
        exact (sound.flight f flight).apart.subset (List.mem_append_left _ own)
  obtain ⟨_, room, _⟩ := registerSpec layout sound.ledger.well word fits
  have unfree := sound.ledger.sound.unfree _ (List.mem_map_of_mem (List.mem_map_of_mem live))
  exact (unfree.mono_right room).symm

theorem committedIntact {w} (reach : Reachable ((system layout).under (StepSound layout)) w) : Intact layout w :=
  soundIntact layout (reachableInvariant (soundInductive layout) reach)

/-! A checkpoint is rolled back, the next one frees the first data blob; its place is reused, and the
machine stops while the new blob is being written. The process that opens the file again commits two
blobs in that place, and writes over the blob that its checkpoint has freed. -/

abbrev appended := appendLayout Nat (List Section)

def interrupted : List Action :=
  [.allocateBlob 1000, .allocateBlob 64, .writeBlob ⟨1, 128, 1000⟩ 1000, .writeBlob ⟨2, 1128, 64⟩ 64,
    .writeIndex [] ⟨2, 1128, 64⟩ [⟨1, 128, 1000⟩] ⟨100, 8, 4, none⟩,
    .writeMetadata 12 true, .writeMetadata 100 true, .writeMetadata 8 true, .writeMetadata 4 true,
    .writeSuperblock true,
    .allocateBlob 64, .allocateBlob 900, .writeBlob ⟨7, 1316, 64⟩ 64, .writeBlob ⟨8, 1380, 900⟩ 900,
    .writeIndex [⟨1, 128, 1000⟩] ⟨7, 1316, 64⟩ [⟨8, 1380, 900⟩] ⟨100, 8, 4, none⟩, .writeMetadata 20 false,
    .writeIndex [⟨1, 128, 1000⟩] ⟨7, 1316, 64⟩ [⟨8, 1380, 900⟩] ⟨100, 8, 4, none⟩, .allocateBlob 300,
    .writeMetadata 36 true, .writeMetadata 100 true, .writeMetadata 8 true, .writeMetadata 4 true,
    .writeSuperblock true, .allocateBlob 500, .writeBlob ⟨18, 128, 500⟩ 200, .crash,
    .allocateBlob 64, .allocateBlob 500, .writeBlob ⟨19, 128, 64⟩ 64, .writeBlob ⟨20, 192, 500⟩ 500,
    .writeIndex [⟨8, 1380, 900⟩] ⟨19, 128, 64⟩ [⟨20, 192, 500⟩] ⟨100, 8, 4, none⟩,
    .writeMetadata 52 true, .writeMetadata 100 true, .writeMetadata 8 true, .writeMetadata 4 true,
    .writeSuperblock true, .allocateBlob 700, .writeBlob ⟨25, 856, 700⟩ 600]

theorem interruptedIntact : Intact appended (interrupted.foldl (perform appended) (start appended)) :=
  committedIntact _ (reachableAllowed (by decide +kernel))

/-! Three freed blobs lie around two live ones at a page boundary. The request for 17 bytes returns
the first free byte of the page, in front of a live blob. -/

def overwritten : List Action :=
  [.allocateBlob (pageSize - 138), .allocateBlob 10, .allocateBlob 5, .allocateBlob 5, .allocateBlob 8,
    .allocateBlob 5, .allocateBlob 64,
    .writeBlob ⟨1, 128, pageSize - 138⟩ (pageSize - 138), .writeBlob ⟨2, pageSize - 10, 10⟩ 10,
    .writeBlob ⟨3, pageSize, 5⟩ 5, .writeBlob ⟨4, pageSize + 5, 5⟩ 5, .writeBlob ⟨5, pageSize + 10, 8⟩ 8,
    .writeBlob ⟨6, pageSize + 18, 5⟩ 5, .writeBlob ⟨7, pageSize + 23, 64⟩ 64,
    .writeIndex [] ⟨7, pageSize + 23, 64⟩ [⟨1, 128, pageSize - 138⟩, ⟨2, pageSize - 10, 10⟩, ⟨3, pageSize, 5⟩,
      ⟨4, pageSize + 5, 5⟩, ⟨5, pageSize + 10, 8⟩, ⟨6, pageSize + 18, 5⟩] ⟨100, 8, 4, none⟩,
    .writeMetadata 12 true, .writeMetadata 100 true, .writeMetadata 8 true, .writeMetadata 4 true,
    .writeSuperblock true, .allocateBlob 64, .writeBlob ⟨12, pageSize + 211, 64⟩ 64,
    .writeIndex [⟨2, pageSize - 10, 10⟩, ⟨3, pageSize, 5⟩, ⟨5, pageSize + 10, 8⟩] ⟨12, pageSize + 211, 64⟩
      [⟨1, 128, pageSize - 138⟩, ⟨4, pageSize + 5, 5⟩, ⟨6, pageSize + 18, 5⟩] ⟨100, 8, 4, none⟩,
    .writeMetadata 92 true, .writeMetadata 100 true, .writeMetadata 8 true, .writeMetadata 4 true,
    .writeSuperblock true, .allocateBlob 17, .writeBlob ⟨17, pageSize, 17⟩ 17]

theorem overwrittenReferences :
    ((overwritten.foldl (perform appended) (start appended)).superblock.map references).getD [] =
      [⟨13, pageSize + 387, 92⟩, ⟨14, pageSize + 275, 100⟩, ⟨15, pageSize + 375, 8⟩, ⟨16, pageSize + 383, 4⟩,
        ⟨12, pageSize + 211, 64⟩, ⟨1, 128, pageSize - 138⟩, ⟨4, pageSize + 5, 5⟩, ⟨6, pageSize + 18, 5⟩] := by
  decide

theorem committedOverwritten : ¬∀ layout w, Reachable (system layout) w → Intact layout w := by
  intro all
  have run : AllAllowed (fun w a => True ∧ Allowed w a) (perform appended) (start appended) overwritten := by decide
  have intact := (all _ _ (reachableUnder (reachableAllowed run))).bytes
  have references := overwrittenReferences
  cases committed : (overwritten.foldl (perform appended) (start appended)).superblock with
  | none =>
    rw [committed] at references
    cases references
  | some sb =>
    rw [committed] at references
    have named : (⟨4, pageSize + 5, 5⟩ : Blob) ∈ PackedFile.references sb := by
      rw [show PackedFile.references sb = _ from references]
      decide
    have kept := intact sb committed _ named (pageSize + 5) ⟨by decide, by decide⟩
    have lost : (overwritten.foldl (perform appended) (start appended)).file (pageSize + 5) = some 17 := by decide
    rw [lost] at kept
    cases kept

end Dewfall.PackedFileRuns
