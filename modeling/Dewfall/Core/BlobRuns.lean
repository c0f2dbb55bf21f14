import Dewfall.Core.BlobRegister
import Dewfall.Core.BlobClaim
import Dewfall.General.Ledger
import Dewfall.General.Transition

/-! Runs of `register_blob`, `unregister_blob` and `claim_blob` on a fresh blob manager. A blob
is live from the call that returned it, or claimed it, until it is unregistered. Ranges are
sets of bytes: an empty blob has none. Callers that free a range they do not own are left out. -/
namespace Dewfall.BlobRuns
open General General.Transition BlobManager BlobFreeSpace BlobRegister BlobRelease BlobClaim

structure World where
  manager : FreeBlobManager
  live : List (Nat × Nat)

def start : World := ⟨initial, []⟩

inductive Call where
  | registerBlob (size : Nat)
  | unregisterBlob (offset size : Nat)
  | claimBlob (offset size : Nat)
  deriving DecidableEq, Repr

variable (layout : Layout Nat (List Section))

def perform (w : World) : Call → World
  | .registerBlob size =>
    let (manager, offset) := registerBlob layout w.manager size
    ⟨manager, (offset, size) :: w.live⟩
  | .unregisterBlob offset size =>
    let (manager, done) := unregisterBlob layout w.manager offset size
    ⟨manager, if done then w.live.erase (offset, size) else w.live⟩
  | .claimBlob offset size =>
    let (manager, done) := claimBlob layout w.manager offset size
    ⟨manager, if done then (offset, size) :: w.live else w.live⟩

-- Sizes are 32-bit and offsets 64-bit words; only a live blob is unregistered.
def Allowed (w : World) : Call → Prop
  | .registerBlob size => size < 2 ^ 32
  | .unregisterBlob offset size => (offset, size) ∈ w.live
  | .claimBlob offset size => offset < 2 ^ 64 ∧ size < 2 ^ 32

local instance pairsLawful : LawfulBEq (Nat × Nat) := inferInstance

instance (w) : (c : Call) → Decidable (Allowed w c)
  | .registerBlob size => inferInstanceAs (Decidable (size < 2 ^ 32))
  | .unregisterBlob offset size => inferInstanceAs (Decidable ((offset, size) ∈ w.live))
  | .claimBlob offset size => inferInstanceAs (Decidable (offset < 2 ^ 64 ∧ size < 2 ^ 32))

def system : System World Call := System.ofFunction start Allowed (perform layout)

def CallSound (w : World) : Call → Prop
  | .registerBlob size => RegisterSound w.manager size
  | .unregisterBlob offset size => UnregisterSound w.manager offset size
  | .claimBlob offset size => ClaimSound w.manager offset size

instance (w) : (c : Call) → Decidable (CallSound w c)
  | .registerBlob size => inferInstanceAs (Decidable (RegisterSound w.manager size))
  | .unregisterBlob offset size => inferInstanceAs (Decidable (UnregisterSound w.manager offset size))
  | .claimBlob offset size => inferInstanceAs (Decidable (ClaimSound w.manager offset size))

abbrev range (blob : Nat × Nat) : Set Nat := blobBytes blob.1 blob.2

structure BlobsApart (w : World) : Prop where
  apart : w.live.Pairwise fun a b => Disjoint (range a) (range b)
  below : ∀ blob ∈ w.live, range blob ⊆ Set.Iio (getFileSize w.manager)
  unfree : ∀ blob ∈ w.live, ∀ pageNumber sections,
    w.manager.freeSectionsByPage.find pageNumber = some sections →
      ∀ s ∈ sections, Disjoint (range blob) (Set.Ico s.offset (s.offset + s.size))

def ledger (w : World) : Ledger Nat := ⟨freeBytes w.manager, w.live.map range⟩

theorem performStep {w c} (well : Well w.manager) (sound : Ledger.Sound (ledger w))
    (allowed : Allowed w c) (call : CallSound w c) :
    Well (perform layout w c).manager ∧ Ledger.Step (ledger w) (ledger (perform layout w c)) ∧
      (Merged w.manager.freeSectionsByPage →
        Merged (perform layout w c).manager.freeSectionsByPage) := by
  cases c with
  | registerBlob size =>
    obtain ⟨kept, room, left, tidy⟩ := registerSpec layout well allowed call
    exact ⟨kept, .grant room left.subset, tidy.merged⟩
  | unregisterBlob offset size =>
    have mem : (offset, size) ∈ w.live := allowed
    have live := sound.unfree _ (List.mem_map_of_mem mem)
    obtain ⟨kept, gained, always, _, merged⟩ := unregisterSpec layout well call live
    refine ⟨kept, ?_, merged⟩
    simp only [perform, ledger]
    split
    · exact .release ((List.perm_cons_erase mem).map range) gained.subset
    · rename_i failed
      have empty : size = 0 := by
        rcases Nat.eq_zero_or_pos size with empty | proper
        · exact empty
        · exact absurd (always proper) failed
      subst empty
      have none : blobBytes offset 0 = ∅ := Set.Ico_self offset
      rw [none, Set.union_empty] at gained
      exact .lose gained.subset
  | claimBlob offset size =>
    obtain ⟨kept, fewer, taken, tidy⟩ := claimSpec layout well call
    refine ⟨kept, ?_, tidy.merged⟩
    simp only [perform, ledger]
    split
    · rename_i done
      exact .grant (taken done).1 (taken done).2.subset
    · exact .lose fewer

structure Invariant (w : World) : Prop where
  well : Well w.manager
  merged : Merged w.manager.freeSectionsByPage
  sound : Ledger.Sound (ledger w)

theorem runInvariant : Inductive ((system layout).under CallSound) Invariant := by
  constructor
  · intro w first
    cases first
    refine ⟨initialWell, fun pageNumber sections found => ?_, List.Pairwise.nil, by simp [ledger, start]⟩
    cases found
  · intro w c after inv step
    obtain ⟨call, allowed, rfl⟩ := step
    obtain ⟨well, step, merged⟩ := performStep layout inv.well inv.sound allowed call
    exact ⟨well, merged inv.merged, Ledger.stepSound step inv.sound⟩

theorem permInvariant {m live live'} (perm : live.Perm live') (inv : Invariant ⟨m, live⟩) : Invariant ⟨m, live'⟩ :=
  ⟨inv.well, inv.merged, Ledger.permSound (perm.map range) inv.sound⟩

theorem subpermInvariant {m live live'} (fewer : List.Subperm live' live) (inv : Invariant ⟨m, live⟩) :
    Invariant ⟨m, live'⟩ := by
  obtain ⟨middle, perm, sub⟩ := fewer
  have apart : (middle.map range).Pairwise Disjoint := inv.sound.apart.sublist (sub.map range)
  refine permInvariant perm ⟨inv.well, inv.merged, apart, fun r mem => ?_⟩
  exact inv.sound.unfree r ((sub.map range).subset mem)

theorem releaseInvariant {m offset size live} (inv : Invariant ⟨m, (offset, size) :: live⟩)
    (sound : UnregisterSound m offset size) : Invariant ⟨(unregisterBlob layout m offset size).1, live⟩ := by
  have own := inv.sound.unfree _ (List.mem_map_of_mem List.mem_cons_self)
  obtain ⟨well, gained, _, _, merged⟩ := unregisterSpec layout inv.well sound own
  exact ⟨well, merged inv.merged, Ledger.stepSound (.release (List.Perm.refl _) gained.subset) inv.sound⟩

theorem invariantApart {w} (inv : Invariant w) : BlobsApart w := by
  have unfree : ∀ blob ∈ w.live, Disjoint (range blob) (freeBytes w.manager) :=
    fun blob mem => inv.sound.unfree _ (List.mem_map_of_mem mem)
  refine ⟨List.pairwise_map.mp inv.sound.apart, ?_, ?_⟩
  · intro blob mem b inside
    show b < w.manager.nextOffset
    refine Nat.lt_of_not_le fun high => ?_
    exact Set.disjoint_left.mp (unfree blob mem) inside (Or.inr high)
  · intro blob mem pageNumber sections found s here
    refine (unfree blob mem).mono_right fun b inside => Or.inl ?_
    exact ⟨pageNumber, sections, found, s, here, inside⟩

theorem liveBlobsApart {w} (reach : Reachable ((system layout).under CallSound) w) :
    BlobsApart w ∧ ∀ size < 2 ^ 32, RegisterSound w.manager size → ∀ blob ∈ w.live,
      Disjoint (blobBytes (registerBlob layout w.manager size).2 size) (range blob) := by
  have inv := reachableInvariant (runInvariant layout) reach
  refine ⟨invariantApart inv, ?_⟩
  intro size width sound blob mem
  obtain ⟨_, room, _⟩ := registerSpec layout inv.well width sound
  exact ((inv.sound.unfree _ (List.mem_map_of_mem mem)).mono_right room).symm

-- A request that spans a page boundary: the tail of page 0 and the head of page 1.
def spanningCalls : List Call :=
  [.registerBlob (pageSize - 4096), .registerBlob 4096, .registerBlob 16384, .registerBlob 100,
    .unregisterBlob (pageSize - 4096) 4096, .unregisterBlob pageSize 16384,
    .registerBlob (4096 + 8192), .claimBlob (pageSize + 8192) 64]

theorem spanningApart :
    BlobsApart (spanningCalls.foldl (perform (appendLayout Nat (List Section))) start) :=
  (liveBlobsApart _ (reachableAllowed (by decide))).1

/-! The spillover of the page before is added to every section of a page, not to its first
section only: the request for 17 bytes returns an offset 10 bytes in front of a section that
follows a live blob. In the second run the request for 15 bytes empties page 1, whose slot page 3
takes: the tail of page 0 that it was given is not found and stays free for the next request. -/

def leakingCalls : List Call :=
  [.registerBlob (pageSize - 10), .registerBlob 10, .registerBlob 5, .registerBlob 5,
    .registerBlob 8, .registerBlob 5, .unregisterBlob (pageSize - 10) 10,
    .unregisterBlob pageSize 5, .unregisterBlob (pageSize + 10) 8, .registerBlob 17]

def refilledCalls : List Call :=
  [.registerBlob (pageSize - 10), .registerBlob 10, .registerBlob 5, .registerBlob (pageSize - 5), .registerBlob pageSize,
    .registerBlob 10, .registerBlob 10, .unregisterBlob (pageSize - 10) 10, .unregisterBlob pageSize 5,
    .unregisterBlob (3 * pageSize) 10, .registerBlob 15, .registerBlob 10]

theorem leakingLive :
    (leakingCalls.foldl (perform (appendLayout Nat (List Section))) start).live =
      [(pageSize, 17), (pageSize + 18, 5), (pageSize + 5, 5), (0, pageSize - 10)] := by
  decide

theorem refilledLive :
    (refilledCalls.foldl (perform (appendLayout Nat (List Section))) start).live =
      [(pageSize - 10, 10), (pageSize - 10, 15), (3 * pageSize + 10, 10), (2 * pageSize, pageSize),
        (pageSize + 5, pageSize - 5), (0, pageSize - 10)] := by
  decide

theorem sharedByte {w : World} {a b : Nat × Nat} (both : [a, b].Sublist w.live) (byte : Nat) (first : byte ∈ range a)
    (second : byte ∈ range b) : ¬BlobsApart w := by
  intro apart
  have two := apart.apart.sublist both
  exact Set.disjoint_left.mp (List.rel_of_pairwise_cons two List.mem_cons_self) first second

theorem spilloverOverlaps : ¬(∀ layout w, Reachable (system layout) w → BlobsApart w) ∧
    (∀ calls ∈ [leakingCalls, refilledCalls], AllAllowed (fun w c => True ∧ Allowed w c)
        (perform (appendLayout Nat (List Section))) start calls ∧
      ¬BlobsApart (calls.foldl (perform (appendLayout Nat (List Section))) start)) := by
  have leaks : ¬BlobsApart (leakingCalls.foldl (perform (appendLayout Nat (List Section))) start) := by
    have both : [(pageSize, 17), (pageSize + 5, 5)].Sublist
        (leakingCalls.foldl (perform (appendLayout Nat (List Section))) start).live := by
      rw [leakingLive]
      decide
    exact sharedByte both (pageSize + 5) ⟨by decide, by decide⟩ ⟨by decide, by decide⟩
  have refills : ¬BlobsApart (refilledCalls.foldl (perform (appendLayout Nat (List Section))) start) := by
    have both : [(pageSize - 10, 10), (pageSize - 10, 15)].Sublist
        (refilledCalls.foldl (perform (appendLayout Nat (List Section))) start).live := by
      rw [refilledLive]
      decide
    exact sharedByte both (pageSize - 10) ⟨by decide, by decide⟩ ⟨by decide, by decide⟩
  have run : AllAllowed (fun w c => True ∧ Allowed w c)
      (perform (appendLayout Nat (List Section))) start leakingCalls := by decide
  refine ⟨fun all => leaks (all _ _ (reachableUnder (reachableAllowed run))), fun calls mem => ?_⟩
  rcases List.mem_cons.mp mem with rfl | mem
  · exact ⟨run, leaks⟩
  · obtain rfl := List.mem_singleton.mp mem
    exact ⟨by decide, refills⟩

end Dewfall.BlobRuns
