import Dewfall.Core.BlobRuns

/-! Whether `unregister_blob` and `claim_blob` take a range whole or leave it alone, on a manager
that any calls have led to: the ranges need not be blobs, and calls may have failed. Both walk
page by page and edit as they go. Empty ranges are left out. -/
namespace Dewfall.BlobExact
open General General.Transition General.OrderedIntervals
open BlobManager BlobFreeSpace BlobRegister BlobRelease BlobClaim

variable (layout : Layout Nat (List Section))

structure Sorted (m : FreeBlobManager) : Prop where
  well : Well m
  merged : Merged m.freeSectionsByPage

theorem initialSorted : Sorted initial :=
  ⟨initialWell, fun _ _ found => by cases found⟩

/-! ## register_blob -/

-- Only whole trailing sections are dropped, whatever the spillover counted.
theorem consumeKept (pageNumber remaining : Nat) {byPage : Sections} (well : MapWell byPage) :
    MapWell (consumeTail layout pageNumber remaining byPage) ∧
      mapBytes (consumeTail layout pageNumber remaining byPage) ⊆ mapBytes byPage := by
  induction pageNumber generalizing remaining byPage with
  | zero => exact ⟨well, Set.Subset.rfl⟩
  | succ previous ih =>
    unfold consumeTail
    split
    · exact ⟨well, Set.Subset.rfl⟩
    split
    · exact ⟨well, Set.Subset.rfl⟩
    rename_i sections back there
    split
    · exact ⟨well, Set.Subset.rfl⟩
    obtain ⟨old, found, last⟩ := Option.bind_eq_some_iff.mp there
    obtain ⟨_, isBack, same⟩ := Option.map_eq_some_iff.mp last
    cases same
    obtain ⟨dropped, left, _⟩ := dropBackWell layout well found isBack
    obtain ⟨kept, fewer⟩ := ih (remaining - back.size) dropped
    exact ⟨kept, fewer.trans (left ▸ Set.sdiff_subset)⟩

theorem registerSorted {m size} (sorted : Sorted m) (width : size < 2 ^ 32)
    (fits : m.nextOffset + size < 2 ^ 64) : Sorted (registerBlob layout m size).1 := by
  unfold registerBlob
  cases scanned : scan size 0 0 m.freeSectionsByPage.entries with
  | none => exact ⟨(registerTail sorted.well fits).1, sorted.merged⟩
  | some fit =>
    have stop := scanFit (Or.inl rfl) scanned
    have found := DenseMap.findMem.mpr stop.entry
    obtain ⟨small, _, page⟩ := sorted.well.map _ _ found
    have taken : sub32 size fit.spillover = size - fit.spillover := by
      rcases stop.short with h | h <;> exact sub32Small width (by omega)
    have room : sub32 size fit.spillover ≤ fit.chosen.size := by
      have sum := stop.fits.trans (u32Le _)
      omega
    obtain ⟨cutPage, cutBytes, cutApart, cutCount⟩ := cutWell size small page room
    have updated := putUpdated layout found (cut fit size)
    have wellCut := updatedWell sorted.well.map small cutPage updated
    have fewer : mapBytes (putSections layout m.freeSectionsByPage fit.pageNumber (cut fit size)) ⊆
        mapBytes m.freeSectionsByPage := by
      rw [updatedBytes sorted.well.map updated, cutBytes]
      refine Set.union_subset (fun b inside => ⟨_, _, found, inside.1⟩) Set.sdiff_subset
    obtain ⟨kept, less⟩ := consumeKept layout (slotPage m.freeSectionsByPage
      (putSections layout m.freeSectionsByPage fit.pageNumber (cut fit size)) fit.pageNumber) fit.spillover wellCut
    have tidy := tidyTrans (tidyPut layout 0 found cutApart cutCount)
      (consumeTidy layout (slotPage m.freeSectionsByPage
        (putSections layout m.freeSectionsByPage fit.pageNumber (cut fit size)) fit.pageNumber) fit.spillover _) (le_refl 0)
    exact ⟨⟨kept, (less.trans fewer).trans sorted.well.below, sorted.well.small⟩,
      tidy.merged sorted.merged⟩

/-! ## The pages of a range to free -/

theorem insertFreeApart {pageNumber sections piece result} (small : pageNumber < 2 ^ 32)
    (page : PageWell pageNumber sections)
    (inside : pageNumber * pageSize ≤ piece.offset ∧ finish piece ≤ (pageNumber + 1) * pageSize)
    (found : insertFree sections piece = some result) :
    Disjoint (Set.Ico piece.offset (finish piece)) (bytes sections) := by
  unfold insertFree at found
  dsimp only at found
  split at found
  · contradiction
  rename_i clear
  split at found
  · contradiction
  rename_i free
  clear found
  simp only [Option.any_eq_true, decide_eq_true_eq, not_exists, not_and] at clear free
  have room := searchRoom small page inside clear free
  have split := List.takeWhile_append_dropWhile (p := fun s => s.offset < piece.offset) (l := sections)
  generalize sections.takeWhile (fun s => s.offset < piece.offset) = before at *
  generalize sections.dropWhile (fun s => s.offset < piece.offset) = after at *
  subst split
  refine Set.disjoint_left.mpr fun b here there => ?_
  obtain ⟨s, mem, low, high⟩ := there
  rcases List.mem_append.mp mem with first | last
  · have ends := (room.low s first).2
    have starts := here.1
    omega
  · have starts := (room.high s last).2
    have ends := here.2
    omega

theorem pieceMeets {byPage : Sections} {pageNumber offset size piece} (small : pageNumber < 2 ^ 32)
    (well : MapWell byPage) (of : PieceWell pageNumber offset size piece) :
    insertFree ((byPage.find pageNumber).getD []) piece = none ↔
      ¬Disjoint (blobBytes offset size ∩ pageRange pageNumber) (mapBytes byPage) := by
  have page := pageWellGetD well pageNumber
  have own : bytes ((byPage.find pageNumber).getD []) = mapBytes byPage ∩ pageRange pageNumber :=
    pageBytesEq well pageNumber
  constructor
  · intro missed apart
    refine insertFreeNone small page of.inside.2 of.proper missed ?_
    rw [of.bytes, own]
    exact apart.mono_right Set.inter_subset_left
  · intro meets
    cases found : insertFree ((byPage.find pageNumber).getD []) piece with
    | none => rfl
    | some result =>
      refine absurd ?_ meets
      have apart := insertFreeApart small page of.inside found
      rw [of.bytes, own] at apart
      refine Set.disjoint_left.mpr fun b here there => ?_
      exact Set.disjoint_left.mp apart here ⟨there, here.2⟩

/-- A walk that met a free section: the pages before that one have been freed. -/
structure Halted (before : Sections) (offset size pageNumber : Nat) (after : Sections) : Prop where
  map : MapWell after
  merged : Merged before → Merged after
  more : mapBytes before ⊆ mapBytes after
  within : mapBytes after ⊆ mapBytes before ∪ blobBytes offset size
  first : Disjoint (blobBytes offset size ∩ pageRange pageNumber) (mapBytes before) →
    blobBytes offset size ∩ pageRange pageNumber ⊆ mapBytes after
  still : ¬Disjoint (blobBytes offset size ∩ pageRange pageNumber) (mapBytes before) → after = before

theorem unregisterPagesHalt {offset size} (endPage turns pageNumber) (byPage : Sections)
    (limit : offset + size ≤ pageLimit) (proper : 0 < size)
    (covers : offset + size ≤ (endPage + 1) * pageSize) (reaches : endPage * pageSize < offset + size)
    (starts : offset < (pageNumber + 1) * pageSize) (order : pageNumber ≤ endPage + 1)
    (enough : endPage + 1 < pageNumber + turns) (well : MapWell byPage)
    (meets : ¬Disjoint (blobBytes offset size ∩ Set.Ici (pageNumber * pageSize)) (mapBytes byPage)) :
    ∃ after, unregisterPages layout offset size endPage turns pageNumber byPage = (after, false) ∧
      Halted byPage offset size pageNumber after := by
  induction turns generalizing pageNumber byPage with
  | zero => omega
  | succ turns ih =>
    have within : pageNumber ≤ endPage := by
      refine Nat.le_of_not_lt fun past => meets (Set.disjoint_left.mpr fun b both _ => ?_)
      have same : pageNumber = endPage + 1 := by omega
      subst same
      exact absurd both.1.2 (not_lt.mpr (covers.trans both.2))
    have pageReach : pageNumber * pageSize < offset + size :=
      (Nat.mul_le_mul_right _ within).trans_lt reaches
    have counter : pageNumber + 1 < 2 ^ 32 := by
      have scaled : pageNumber * pageSize < (2 ^ 32 - 1) * pageSize := pageReach.trans_le limit
      have := Nat.lt_of_mul_lt_mul_right scaled
      omega
    have piece := pieceInWell limit starts pageReach proper
    have conflict := pieceMeets (by omega) well piece
    unfold unregisterPages
    dsimp only
    rw [if_neg (not_lt.mpr within), emplaceFind, Option.getD_some, u32Small counter]
    cases found : insertFree ((byPage.find pageNumber).getD []) (pieceIn pageNumber offset size) with
    | none =>
      -- The page holds the section that is in the way, so its entry is there already.
      have overlap := conflict.mp found
      have present : byPage.find pageNumber ≠ none := by
        intro absent
        refine overlap (Set.disjoint_left.mpr fun b here there => ?_)
        have own := pageBytesEq well pageNumber
        have inPage : b ∈ pageBytes byPage pageNumber := own ▸ ⟨there, here.2⟩
        simp [pageBytes, absent] at inPage
      have same : byPage.emplace layout pageNumber [] = byPage := by
        rw [DenseMap.emplace, dif_neg present]
      refine ⟨byPage, by simp only [same], well, id, Set.Subset.rfl, Set.subset_union_left, ?_, fun _ => rfl⟩
      exact fun apart => absurd apart overlap
    | some sections =>
      have apart : Disjoint (blobBytes offset size ∩ pageRange pageNumber) (mapBytes byPage) := by
        by_contra overlap
        rw [conflict.mpr overlap] at found
        contradiction
      obtain ⟨wellNext, bytesNext, tidyNext⟩ := freePage layout (by omega) well piece.inside
        (Or.inl piece.proper) found
      rw [piece.bytes] at bytesNext
      have next : (pageNumber + 1) * pageSize = pageNumber * pageSize + pageSize := Nat.succ_mul _ _
      have meetsNext : ¬Disjoint (blobBytes offset size ∩ Set.Ici ((pageNumber + 1) * pageSize))
          (mapBytes (putSections layout (byPage.emplace layout pageNumber []) pageNumber sections)) := by
        rw [bytesNext]
        intro clear
        refine meets (Set.disjoint_left.mpr fun b here there => ?_)
        by_cases low : b < (pageNumber + 1) * pageSize
        · exact Set.disjoint_left.mp apart ⟨here.1, here.2, low⟩ there
        · exact Set.disjoint_left.mp clear ⟨here.1, not_lt.mp low⟩ (Or.inl there)
      obtain ⟨after, result, halted⟩ := ih (pageNumber + 1) _
        (starts.trans (by rw [Nat.succ_mul (pageNumber + 1)]; exact Nat.lt_add_of_pos_right (by decide)))
        (by omega) (by omega) wellNext meetsNext
      refine ⟨after, result, halted.map, fun merged => halted.merged (tidyNext.merged merged), ?_, ?_, ?_, ?_⟩
      · exact (bytesNext ▸ Set.subset_union_left).trans halted.more
      · refine halted.within.trans ?_
        rw [bytesNext]
        exact Set.union_subset (Set.union_subset_union_right _ Set.inter_subset_left) Set.subset_union_right
      · exact fun _ => (bytesNext ▸ Set.subset_union_right).trans halted.more
      · exact fun overlap => absurd apart overlap

/-! ## unregister_blob -/

/-- The manager has neither gained nor lost a free byte. -/
structure Unchanged (before after : FreeBlobManager) : Prop where
  free : mapBytes after.freeSectionsByPage = mapBytes before.freeSectionsByPage
  fileSize : getFileSize after = getFileSize before

/-- What a call is to do: succeed where it can and leave `free`, or change nothing. -/
structure Outcome (m : FreeBlobManager) (possible : Prop) (free : Set Nat)
    (result : FreeBlobManager × Bool) : Prop where
  succeeds : result.2 = true ↔ possible
  changed : result.2 = true → freeBytes result.1 = free
  refused : result.2 = false → Unchanged m result.1

theorem outcomeTaken {m possible free after} (can : possible) (left : freeBytes after = free) :
    Outcome m possible free (after, true) :=
  ⟨⟨fun _ => can, fun _ => rfl⟩, fun _ => left, fun no => absurd no.symm Bool.false_ne_true⟩

theorem outcomeRefused {m possible free after} (cannot : ¬possible) (same : Unchanged m after) :
    Outcome m possible free (after, false) :=
  ⟨⟨fun yes => absurd yes Bool.false_ne_true, fun can => absurd can cannot⟩,
    fun yes => absurd yes Bool.false_ne_true, fun _ => same⟩

def Allocated (m : FreeBlobManager) (offset size : Nat) : Prop :=
  offset + size ≤ getFileSize m ∧ Disjoint (blobBytes offset size) (mapBytes m.freeSectionsByPage)

def UnregisterExact (m : FreeBlobManager) (offset size : Nat) : Prop :=
  Outcome m (Allocated m offset size) (freeBytes m ∪ blobBytes offset size)
    (unregisterBlob layout m offset size)

-- A conflict is met on the first page or on none; a range that ends behind the file is refused
-- before the walk.
def UnregisterSettled (m : FreeBlobManager) (offset size : Nat) : Prop :=
  m.nextOffset < u64 (offset + size) ∨ offset + size ≤ m.nextOffset ∧
    (Disjoint (blobBytes offset size) (mapBytes m.freeSectionsByPage) ∨
      ¬Disjoint (blobBytes offset size ∩ pageRange (offset / pageSize)) (mapBytes m.freeSectionsByPage))

theorem unregisterAllocated {m : FreeBlobManager} {offset size} (sorted : Sorted m)
    (limit : m.nextOffset ≤ pageLimit) (proper : 0 < size) (own : Allocated m offset size) :
    Sorted (unregisterBlob layout m offset size).1 ∧
      (unregisterBlob layout m offset size).1.nextOffset ≤ m.nextOffset ∧
      UnregisterExact layout m offset size := by
  obtain ⟨below, apart⟩ := own
  obtain ⟨after, map, gained, tidy, result⟩ := unregisterLive layout sorted.well (below.trans limit) proper
    below apart
  have kept : Well ⟨m.nextOffset, after⟩ := by
    refine ⟨map, ?_, sorted.well.small⟩
    rw [gained]
    exact Set.union_subset sorted.well.below fun b inside => inside.2.trans_le below
  have more : freeBytes ⟨m.nextOffset, after⟩ = freeBytes m ∪ blobBytes offset size := by
    unfold freeBytes
    rw [gained, Set.union_right_comm]
  unfold UnregisterExact
  rw [result]
  dsimp only
  split
  · obtain ⟨trimmed, same⟩ := trimWell layout after.entries.length kept
    refine ⟨⟨trimmed, ?_⟩, trimLower layout _ kept, outcomeTaken ⟨below, apart⟩ (same.trans more)⟩
    exact (trimTidy layout _ _).merged (tidy.merged sorted.merged)
  · exact ⟨⟨kept, tidy.merged sorted.merged⟩, le_refl _, outcomeTaken ⟨below, apart⟩ more⟩

theorem unregisterHalts {m : FreeBlobManager} {offset size} (sorted : Sorted m)
    (limit : m.nextOffset ≤ pageLimit) (proper : 0 < size) (below : offset + size ≤ m.nextOffset)
    (meets : ¬Disjoint (blobBytes offset size) (mapBytes m.freeSectionsByPage)) :
    ∃ after, unregisterBlob layout m offset size = (⟨m.nextOffset, after⟩, false) ∧
      Halted m.freeSectionsByPage offset size (offset / pageSize) after := by
  have width : pageLimit < 2 ^ 64 := by decide
  have positive : 0 < pageSize := by decide
  have lastPage := Nat.div_add_mod (offset + size - 1) pageSize
  have lastRest := Nat.mod_lt (offset + size - 1) positive
  have firstPage := Nat.div_add_mod offset pageSize
  have firstRest := Nat.mod_lt offset positive
  have order : offset / pageSize ≤ (offset + size - 1) / pageSize := Nat.div_le_div_right (by omega)
  have all : blobBytes offset size ∩ Set.Ici (offset / pageSize * pageSize) = blobBytes offset size := by
    refine Set.inter_eq_left.mpr fun b inside => ?_
    exact (Nat.div_mul_le_self offset pageSize).trans inside.1
  obtain ⟨after, result, halted⟩ :=
    unregisterPagesHalt layout ((offset + size - 1) / pageSize) ((offset + size - 1) / pageSize + 2)
      (offset / pageSize) m.freeSectionsByPage (below.trans limit) proper
      (by rw [Nat.succ_mul, Nat.mul_comm]; omega) (by rw [Nat.mul_comm]; omega)
      (by rw [Nat.succ_mul, Nat.mul_comm]; omega) (by omega)
      ((Nat.lt_succ_self _).trans_le (Nat.le_add_left _ _)) sorted.well.map (by rwa [all])
  refine ⟨after, ?_, halted⟩
  unfold unregisterBlob
  dsimp only
  rw [u64Small (by omega), if_neg (not_lt.mpr below), endPageEq (below.trans limit) (by omega),
    pageNumberEq (by omega : offset ≤ pageLimit), result]

theorem haltedSorted {m : FreeBlobManager} {offset size pageNumber after} (sorted : Sorted m)
    (below : offset + size ≤ m.nextOffset)
    (halted : Halted m.freeSectionsByPage offset size pageNumber after) : Sorted ⟨m.nextOffset, after⟩ := by
  refine ⟨⟨halted.map, halted.within.trans ?_, sorted.well.small⟩, halted.merged sorted.merged⟩
  exact Set.union_subset sorted.well.below fun b inside => inside.2.trans_le below

/-! A range whose end wraps is read as one that ends near the file's start: no page is visited, or
the whole range is added to pages in the middle of the counter's range. -/

theorem insertLast {sections : List Section} {piece} (behind : ∀ s ∈ sections, s.offset < piece.offset)
    (clear : ∀ s ∈ sections, s.stop ≤ piece.offset) : insertFree sections piece ≠ none := by
  have all : sections.takeWhile (fun s => s.offset < piece.offset) = sections :=
    List.takeWhile_eq_self_iff.mpr fun s mem => by simpa using behind s mem
  have nothing : sections.dropWhile (fun s => s.offset < piece.offset) = [] :=
    List.dropWhile_eq_nil_iff.mpr fun s mem => by simpa using behind s mem
  unfold insertFree
  dsimp only
  rw [all, nothing, if_neg, if_neg (by simp)]
  · split
    · simp
    · split <;> simp
  · simp only [Option.any_eq_true, decide_eq_true_eq, not_exists, not_and, not_lt]
    exact fun prev last => clear prev (List.mem_of_getLast? last)

theorem unregisterWrapped {offset size} (endPage turns pageNumber) (byPage : Sections)
    (high : 2 ^ 32 * pageSize ≤ offset) (ends : offset + size = 2 ^ 64)
    (counter : endPage + 1 < 2 ^ 32) (order : pageNumber ≤ endPage + 1)
    (enough : endPage + 1 < pageNumber + turns)
    (pages : ∀ p, pageNumber ≤ p → PageWell p ((byPage.find p).getD [])) :
    (unregisterPages layout offset size endPage turns pageNumber byPage).2 = true := by
  induction turns generalizing pageNumber byPage with
  | zero => omega
  | succ turns ih =>
    unfold unregisterPages
    by_cases past : endPage < pageNumber
    · rw [if_pos past]
    dsimp only
    rw [if_neg past, emplaceFind, Option.getD_some, u32Small (by omega)]
    have page := pages pageNumber (le_refl _)
    have scaled : (pageNumber + 1) * pageSize ≤ 2 ^ 32 * pageSize := Nat.mul_le_mul_right _ (by omega)
    have starts : (pieceIn pageNumber offset size).offset = offset := by
      refine max_eq_left ?_
      rw [Nat.succ_mul] at scaled
      omega
    cases found : insertFree ((byPage.find pageNumber).getD []) (pieceIn pageNumber offset size) with
    | none =>
      refine absurd found (insertLast (fun s mem => ?_) fun s mem => ?_)
      · have inside := (page.inside s mem).2
        have size := page.proper s mem
        unfold finish at inside
        omega
      · have inside := (page.inside s mem).2
        rw [stopFinish page (by omega) mem]
        omega
    | some sections =>
      refine ih (pageNumber + 1) _ (by omega) (by omega) fun p later => ?_
      rw [emplacePutUpdated layout byPage pageNumber sections p, if_neg (by omega)]
      exact pages p (by omega)

theorem unregisterWraps {m : FreeBlobManager} {offset size} (well : Well m) (word : offset < 2 ^ 64)
    (width : size < 2 ^ 32) (wraps : 2 ^ 64 ≤ offset + size) (below : u64 (offset + size) ≤ m.nextOffset) :
    (unregisterBlob layout m offset size).2 = true := by
  have stop : u64 (offset + size) = offset + size - 2 ^ 64 := by
    unfold u64
    omega
  have walked : (unregisterPages layout offset size (u32 (sub64 (u64 (offset + size)) 1 / pageSize))
      (u32 (sub64 (u64 (offset + size)) 1 / pageSize) + 2) (page offset) m.freeSectionsByPage).2 = true := by
    rw [stop]
    rcases Nat.eq_zero_or_pos (offset + size - 2 ^ 64) with zero | positive
    · rw [zero]
      refine unregisterWrapped layout _ _ (page offset) _ ?_ (by omega) (by decide) ?_ (by omega) ?_
      · unfold pageSize
        omega
      · have last : u32 (sub64 0 1 / pageSize) = 4123168604 := by decide
        rw [last]
        unfold page u32 pageSize
        omega
      · exact fun p _ => pageWellGetD well.map p
    · have last : sub64 (offset + size - 2 ^ 64) 1 = offset + size - 2 ^ 64 - 1 :=
        sub64Small (by omega) positive
      have past : u32 (sub64 (offset + size - 2 ^ 64) 1 / pageSize) < page offset := by
        rw [last]
        unfold page u32 pageSize
        omega
      rw [unregisterDone layout past]
  unfold unregisterBlob
  dsimp only
  rw [if_neg (not_lt.mpr below)]
  generalize unregisterPages layout offset size _ _ _ _ = result at *
  obtain ⟨byPage, done⟩ := result
  cases walked
  dsimp only
  split <;> rfl

theorem firstByte {offset size : Nat} (proper : 0 < size) :
    offset ∈ blobBytes offset size ∩ pageRange (offset / pageSize) := by
  have next : (offset / pageSize + 1) * pageSize = pageSize * (offset / pageSize) + pageSize := by
    rw [Nat.succ_mul, Nat.mul_comm]
  have divides := Nat.div_add_mod offset pageSize
  have rest := Nat.mod_lt offset (show 0 < pageSize by decide)
  refine ⟨⟨le_refl _, by omega⟩, Nat.div_mul_le_self _ _, ?_⟩
  rw [next]
  omega

theorem unregisterExactIff {m : FreeBlobManager} {offset size} (sorted : Sorted m)
    (limit : m.nextOffset ≤ pageLimit) (word : offset < 2 ^ 64) (proper : 0 < size) (width : size < 2 ^ 32) :
    UnregisterExact layout m offset size ↔ UnregisterSettled m offset size := by
  by_cases behind : m.nextOffset < u64 (offset + size)
  · have result : unregisterBlob layout m offset size = (m, false) := if_pos behind
    refine iff_of_true ?_ (Or.inl behind)
    unfold UnregisterExact
    rw [result]
    refine outcomeRefused (fun own => ?_) ⟨rfl, rfl⟩
    exact absurd (behind.trans_le (Nat.mod_le _ _)) (not_lt.mpr own.1)
  by_cases wraps : 2 ^ 64 ≤ offset + size
  · have small := sorted.well.small
    refine iff_of_false (fun exact_ => ?_) fun settled => ?_
    · have own := exact_.succeeds.mp (unregisterWraps layout sorted.well word width wraps (not_lt.mp behind))
      have below : offset + size ≤ m.nextOffset := own.1
      omega
    · have below := (settled.resolve_left behind).1
      omega
  rw [u64Small (by omega)] at behind
  have below := not_lt.mp behind
  by_cases apart : Disjoint (blobBytes offset size) (mapBytes m.freeSectionsByPage)
  · exact iff_of_true (unregisterAllocated layout sorted limit proper ⟨below, apart⟩).2.2
      (Or.inr ⟨below, Or.inl apart⟩)
  obtain ⟨after, result, halted⟩ := unregisterHalts layout sorted limit proper below apart
  have refused : ¬Allocated m offset size := fun own => apart own.2
  unfold UnregisterExact
  rw [result]
  by_cases first : Disjoint (blobBytes offset size ∩ pageRange (offset / pageSize)) (mapBytes m.freeSectionsByPage)
  · refine iff_of_false (fun exact_ => ?_) fun settled => ?_
    · have own := @firstByte offset size proper
      have gained := halted.first first own
      rw [show mapBytes after = mapBytes m.freeSectionsByPage from (exact_.refused rfl).free] at gained
      exact Set.disjoint_left.mp first own gained
    · rcases settled with over_ | ⟨_, clear | meets⟩
      · rw [u64Small (by omega)] at over_
        omega
      · exact apart clear
      · exact meets first
  · refine iff_of_true (outcomeRefused refused ?_) (Or.inr ⟨below, Or.inr first⟩)
    rw [halted.still first]
    exact ⟨rfl, rfl⟩

theorem unregisterSorted {m : FreeBlobManager} {offset size} (sorted : Sorted m)
    (limit : m.nextOffset ≤ pageLimit) (proper : 0 < size) (word : offset + size < 2 ^ 64) :
    Sorted (unregisterBlob layout m offset size).1 ∧
      (unregisterBlob layout m offset size).1.nextOffset ≤ m.nextOffset := by
  by_cases below : offset + size ≤ m.nextOffset
  · by_cases apart : Disjoint (blobBytes offset size) (mapBytes m.freeSectionsByPage)
    · obtain ⟨kept, lower, _⟩ := unregisterAllocated layout sorted limit proper ⟨below, apart⟩
      exact ⟨kept, lower⟩
    · obtain ⟨after, result, halted⟩ := unregisterHalts layout sorted limit proper below apart
      rw [result]
      exact ⟨haltedSorted sorted below halted, le_refl _⟩
  · have result : unregisterBlob layout m offset size = (m, false) :=
      if_pos (by rw [u64Small word]; omega)
    rw [result]
    exact ⟨sorted, le_refl _⟩

/-! ## claim_blob -/

def ClaimExact (m : FreeBlobManager) (offset size : Nat) : Prop :=
  Outcome m (blobBytes offset size ⊆ freeBytes m) (freeBytes m \ blobBytes offset size)
    (claimBlob layout m offset size)

-- Behind the file's end the claim and its gap keep to pages the counter can name. Inside the file
-- the first page fails if any does; a range that straddles the end is refused, so it must not be free.
def ClaimSettled (m : FreeBlobManager) (offset size : Nat) : Prop :=
  if m.nextOffset ≤ offset then offset + size < 2 ^ 64 ∧ (m.nextOffset = offset ∨ offset ≤ pageLimit)
  else if offset + size ≤ m.nextOffset then
    blobBytes offset size ⊆ mapBytes m.freeSectionsByPage ∨
      ¬blobBytes offset size ∩ pageRange (offset / pageSize) ⊆ mapBytes m.freeSectionsByPage
  else ¬blobBytes offset size ⊆ freeBytes m

-- With the largest word as last page the walk never passes it.
theorem unregisterEndless {offset size turns pageNumber} {byPage : Sections} (word : pageNumber < 2 ^ 32) :
    (unregisterPages layout offset size (2 ^ 32 - 1) turns pageNumber byPage).2 = false := by
  induction turns generalizing pageNumber byPage with
  | zero => rfl
  | succ turns ih =>
    unfold unregisterPages
    rw [if_neg (by omega)]
    dsimp only
    split
    · rfl
    · exact ih (u32Lt _)

theorem unregisterLastPage {m : FreeBlobManager} {size} (proper : 0 < size) (within : size ≤ pageSize) :
    (unregisterBlob layout m pageLimit size).2 = false := by
  have stop : u64 (pageLimit + size) = pageLimit + size := u64Small (by
    unfold pageLimit pageSize at *
    omega)
  have last : u32 (sub64 (pageLimit + size) 1 / pageSize) = 2 ^ 32 - 1 := by
    rw [sub64Small (by unfold pageLimit pageSize at *; omega) (by omega)]
    unfold u32 pageLimit pageSize at *
    omega
  have endless := @unregisterEndless layout pageLimit size (2 ^ 32 - 1 + 2) (page pageLimit)
    m.freeSectionsByPage (u32Lt _)
  unfold unregisterBlob
  dsimp only
  split
  · rfl
  · rw [stop, last]
    generalize unregisterPages layout pageLimit size _ _ _ _ = result at *
    obtain ⟨byPage, done⟩ := result
    cases endless
    rfl

theorem fillFar {start turns gapPos} {m : FreeBlobManager} (width : start < 2 ^ 64)
    (low : gapPos ≤ pageLimit) (gap : gapPos < start)
    (filled : (fillGap layout start turns gapPos m).2 = true) : start ≤ pageLimit := by
  induction turns generalizing gapPos m with
  | zero => exact absurd filled Bool.false_ne_true
  | succ turns ih =>
    unfold fillGap at filled
    rw [if_neg (not_le.mpr gap)] at filled
    dsimp only at filled
    rcases Nat.lt_or_ge gapPos pageLimit with inside | outside
    · have positive : 0 < pageSize := by decide
      have page : gapPos / pageSize + 1 ≤ 2 ^ 32 - 1 := by
        have bound : gapPos / pageSize < 2 ^ 32 - 1 := (Nat.div_lt_iff_lt_mul positive).mpr inside
        omega
      have pageEnd : (gapPos / pageSize + 1) * pageSize ≤ pageLimit := Nat.mul_le_mul_right _ page
      have lower : u64 ((gapPos / pageSize + 1) * pageSize) ≤ pageLimit := (Nat.mod_le _ _).trans pageEnd
      generalize unregisterBlob layout m gapPos _ = result at *
      obtain ⟨left, done⟩ := result
      cases done with
      | false => exact absurd filled Bool.false_ne_true
      | true =>
        dsimp only at filled
        rcases Nat.lt_or_ge (min start (u64 ((gapPos / pageSize + 1) * pageSize))) start with more | all
        · exact ih ((min_le_right _ _).trans lower) more filled
        · omega
    · have same : gapPos = pageLimit := le_antisymm low outside
      subst same
      have pages : u64 ((pageLimit / pageSize + 1) * pageSize) = pageLimit + pageSize := by decide
      have size : u32 (sub64 (min start (pageLimit + pageSize)) pageLimit) =
          min start (pageLimit + pageSize) - pageLimit := by
        have small : pageLimit + pageSize < 2 ^ 64 := by decide
        rw [sub64Small (by omega) (by omega), u32Small (by unfold pageSize; omega)]
      have refused := @unregisterLastPage layout m (min start (pageLimit + pageSize) - pageLimit)
        (by unfold pageSize; omega) (by omega)
      rw [pages, size] at filled
      generalize unregisterBlob layout m pageLimit _ = result at *
      obtain ⟨left, done⟩ := result
      cases refused
      exact absurd filled Bool.false_ne_true

theorem claimBehindIff {m : FreeBlobManager} {offset size} (sorted : Sorted m)
    (limit : m.nextOffset ≤ pageLimit) (word : offset < 2 ^ 64) (proper : 0 < size) (width : size < 2 ^ 32)
    (behind : m.nextOffset ≤ offset) :
    ClaimExact layout m offset size ↔
      offset + size < 2 ^ 64 ∧ (m.nextOffset = offset ∨ offset ≤ pageLimit) := by
  have can : blobBytes offset size ⊆ freeBytes m := fun b inside => Or.inr (behind.trans inside.1)
  have one : claimBlob layout m offset size = fillGap layout offset (offset + 1) m.nextOffset
      ⟨u64 (offset + size), m.freeSectionsByPage⟩ := by
    unfold claimBlob
    dsimp only
    rw [if_neg (by omega), if_pos behind]
  constructor
  · intro exact_
    have done := exact_.succeeds.mpr can
    rw [one] at done
    have gap : m.nextOffset = offset ∨ offset ≤ pageLimit := by
      rcases Nat.lt_or_ge m.nextOffset offset with gap | none_
      · exact Or.inr (fillFar layout word limit gap done)
      · exact Or.inl (le_antisymm behind none_)
    have bound : pageLimit + 2 ^ 32 < 2 ^ 64 := by decide
    exact ⟨by omega, gap⟩
  · rintro ⟨fits, gap⟩
    have sound : ClaimSound m offset size := Or.inr ⟨fits, by rwa [if_pos behind]⟩
    obtain ⟨_, _, taken, _⟩ := claimSpec layout sorted.well sound
    obtain ⟨after, result, _⟩ := claimBehind layout sorted.well proper behind fits gap
    unfold ClaimExact
    rw [one, u64Small fits, result] at taken ⊢
    exact outcomeTaken can (taken rfl).2

-- The walk leaves the map as it is just when the first page does not hold its part.
theorem claimPagesHalt {stop pos} (turns) {byPage : Sections} (limit : stop ≤ pageLimit)
    (well : MapWell byPage) (merged : Merged byPage) (order : pos < stop) :
    mapBytes (claimPages layout stop (turns + 1) pos byPage).1 = mapBytes byPage ↔
      ¬Set.Ico pos stop ∩ pageRange (pos / pageSize) ⊆ mapBytes byPage := by
  have proper := claimPiece order limit
  have here : page pos = pos / pageSize := pageNumberEq (by omega)
  have low : pos / pageSize * pageSize ≤ pos := Nat.div_mul_le_self _ _
  have counter : u32 (pos / pageSize + 1) = pos / pageSize + 1 := by
    have bound : pos / pageSize < 2 ^ 32 - 1 :=
      (Nat.div_lt_iff_lt_mul (by decide)).mpr (order.trans_le limit)
    exact u32Small (by omega)
  have piece : Set.Ico pos stop ∩ pageRange (pos / pageSize) =
      Set.Ico pos (min stop ((pos / pageSize + 1) * pageSize)) := by
    ext b
    simp only [Set.mem_inter_iff, Set.mem_Ico]
    omega
  rw [piece]
  unfold claimPages
  rw [if_neg (not_le.mpr order)]
  dsimp only
  rw [here, counter] at proper ⊢
  have high : min stop ((pos / pageSize + 1) * pageSize) ≤ (pos / pageSize + 1) * pageSize := min_le_right _ _
  generalize min stop ((pos / pageSize + 1) * pageSize) = pieceEnd at *
  cases found : (byPage.find (pos / pageSize)).bind (carve pos pieceEnd) with
  | none =>
    refine ⟨fun _ room => ?_, fun _ => rfl⟩
    refine absurd found ?_
    rw [← here]
    exact carveFound well merged proper room (by rwa [here]) (by rwa [here])
  | some result =>
    rw [← here] at found
    have carved := carvePage layout well proper found
    have later := (claimPagesWell layout turns pieceEnd limit carved.map).fewer
    rw [carved.gone, here] at later
    refine ⟨fun same => ?_, fun missing => absurd carved.room missing⟩
    have own : pos ∈ Set.Ico pos pieceEnd := ⟨le_refl _, proper⟩
    have still := carved.room own
    rw [← same] at still
    exact absurd own (later still).2

theorem claimInsideIff {m : FreeBlobManager} {offset size} (sorted : Sorted m)
    (limit : m.nextOffset ≤ pageLimit) (proper : 0 < size) (below : offset + size ≤ m.nextOffset) :
    ClaimExact layout m offset size ↔ blobBytes offset size ⊆ mapBytes m.freeSectionsByPage ∨
      ¬blobBytes offset size ∩ pageRange (offset / pageSize) ⊆ mapBytes m.freeSectionsByPage := by
  have width : pageLimit < 2 ^ 64 := by decide
  have only : blobBytes offset size ⊆ freeBytes m → blobBytes offset size ⊆ mapBytes m.freeSectionsByPage := by
    intro room b inside
    refine (room inside).resolve_right fun high => ?_
    have top := inside.2
    have bottom : m.nextOffset ≤ b := high
    omega
  have sound : ClaimSound m offset size :=
    Or.inr ⟨by omega, by rw [if_neg (by omega)]; exact Or.inr (below.trans limit)⟩
  obtain ⟨_, _, taken, _⟩ := claimSpec layout sorted.well sound
  by_cases room : blobBytes offset size ⊆ mapBytes m.freeSectionsByPage
  · have free : blobBytes offset size ⊆ freeBytes m := room.trans Set.subset_union_left
    have done := claimDone layout sorted.well sorted.merged proper (below.trans limit) free (Or.inr below)
    refine iff_of_true ?_ (Or.inl room)
    exact ⟨⟨fun _ => free, fun _ => done⟩, fun _ => (taken done).2,
      fun failed => absurd (done.symm.trans failed) (by decide)⟩
  · have failed : (claimBlob layout m offset size).2 = false :=
      Bool.eq_false_iff.mpr fun done => room (only (taken done).1)
    have one : claimBlob layout m offset size =
        (⟨m.nextOffset, (claimPages layout (offset + size) (offset + size + 1) offset m.freeSectionsByPage).1⟩,
          (claimPages layout (offset + size) (offset + size + 1) offset m.freeSectionsByPage).2) := by
      unfold claimBlob
      dsimp only
      rw [u64Small (by omega), if_neg (by omega), if_neg (by omega), if_neg (by omega)]
    have halted := claimPagesHalt layout (offset + size) (below.trans limit) sorted.well.map sorted.merged
      (show offset < offset + size by omega)
    rw [or_iff_right room, ← halted]
    constructor
    · intro exact_
      have same := (exact_.refused failed).free
      rwa [one] at same
    · intro same
      refine ⟨⟨fun done => absurd (failed.symm.trans done) (by decide), fun free => absurd (only free) room⟩,
        fun done => absurd (failed.symm.trans done) (by decide), fun _ => ?_⟩
      rw [one]
      exact ⟨same, rfl⟩

theorem claimExactIff {m : FreeBlobManager} {offset size} (sorted : Sorted m)
    (limit : m.nextOffset ≤ pageLimit) (word : offset < 2 ^ 64) (proper : 0 < size) (width : size < 2 ^ 32) :
    ClaimExact layout m offset size ↔ ClaimSettled m offset size := by
  have bound : pageLimit + 2 ^ 32 < 2 ^ 64 := by decide
  unfold ClaimSettled
  split
  · rename_i behind
    exact claimBehindIff layout sorted limit word proper width behind
  · rename_i low
    split
    · rename_i below
      exact claimInsideIff layout sorted limit proper below
    · rename_i straddles
      have result : claimBlob layout m offset size = (m, false) := by
        unfold claimBlob
        dsimp only
        rw [u64Small (by omega), if_neg (by omega), if_neg low, if_pos (by omega)]
      unfold ClaimExact
      rw [result]
      exact ⟨fun exact_ free => absurd (exact_.succeeds.mpr free) Bool.false_ne_true,
        fun taken => outcomeRefused taken ⟨rfl, rfl⟩⟩

theorem claimSorted {m : FreeBlobManager} {offset size} (sorted : Sorted m)
    (limit : m.nextOffset ≤ pageLimit) (fits : offset + size ≤ pageLimit) :
    Sorted (claimBlob layout m offset size).1 ∧ (claimBlob layout m offset size).1.nextOffset ≤ pageLimit := by
  have width : pageLimit < 2 ^ 64 := by decide
  have sound : ClaimSound m offset size := by
    refine Or.inr ⟨by omega, ?_⟩
    split
    · exact Or.inr (by omega)
    · exact Or.inr fits
  obtain ⟨well, _, _, tidy⟩ := claimSpec layout sorted.well sound
  refine ⟨⟨well, tidy.merged sorted.merged⟩, ?_⟩
  unfold claimBlob
  dsimp only
  rw [u64Small (by omega)]
  split
  · exact limit
  rename_i proper
  split
  · rename_i behind
    obtain ⟨after, result, _⟩ := claimBehind layout sorted.well (by omega) behind (by omega : offset + size < 2 ^ 64)
      (Or.inr (by omega))
    rw [result]
    exact fits
  split
  · exact limit
  · exact limit

/-! ## Any calls -/

open BlobRuns (Call)

def perform (m : FreeBlobManager) : Call → FreeBlobManager
  | .registerBlob size => (registerBlob layout m size).1
  | .unregisterBlob offset size => (unregisterBlob layout m offset size).1
  | .claimBlob offset size => (claimBlob layout m offset size).1

def Words (_ : FreeBlobManager) : Call → Prop
  | .registerBlob size => size < 2 ^ 32
  | .unregisterBlob offset size => offset < 2 ^ 64 ∧ size < 2 ^ 32
  | .claimBlob offset size => offset < 2 ^ 64 ∧ size < 2 ^ 32

instance (m) : (c : Call) → Decidable (Words m c)
  | .registerBlob size => inferInstanceAs (Decidable (size < 2 ^ 32))
  | .unregisterBlob offset size | .claimBlob offset size =>
    inferInstanceAs (Decidable (offset < 2 ^ 64 ∧ size < 2 ^ 32))

def system : System FreeBlobManager Call := System.ofFunction initial Words (perform layout)

-- The file keeps to pages the counter can name, and what is freed is a range of offsets.
def InFile (m : FreeBlobManager) : Call → Prop
  | .registerBlob size => m.nextOffset + size ≤ pageLimit
  | .unregisterBlob offset size => 0 < size ∧ offset + size < 2 ^ 64
  | .claimBlob offset size => offset + size ≤ pageLimit

instance (m) : (c : Call) → Decidable (InFile m c)
  | .registerBlob size => inferInstanceAs (Decidable (m.nextOffset + size ≤ pageLimit))
  | .unregisterBlob offset size => inferInstanceAs (Decidable (0 < size ∧ offset + size < 2 ^ 64))
  | .claimBlob offset size => inferInstanceAs (Decidable (offset + size ≤ pageLimit))

structure Invariant (m : FreeBlobManager) : Prop where
  sorted : Sorted m
  limit : m.nextOffset ≤ pageLimit

theorem runInvariant : Inductive ((system layout).under InFile) Invariant := by
  constructor
  · intro m first
    cases first
    exact ⟨initialSorted, Nat.zero_le _⟩
  · intro m c after inv step
    obtain ⟨inFile, words, rfl⟩ := step
    cases c with
    | registerBlob size =>
      have fits : m.nextOffset + size ≤ pageLimit := inFile
      have width : pageLimit < 2 ^ 64 := by decide
      refine ⟨registerSorted layout inv.sorted words (by omega), ?_⟩
      show (registerBlob layout m size).1.nextOffset ≤ pageLimit
      unfold registerBlob
      split
      · exact (Nat.mod_le _ _).trans fits
      · exact inv.limit
    | unregisterBlob offset size =>
      obtain ⟨sorted, lower⟩ := unregisterSorted layout inv.sorted inv.limit inFile.1 inFile.2
      exact ⟨sorted, lower.trans inv.limit⟩
    | claimBlob offset size =>
      obtain ⟨sorted, limit⟩ := claimSorted layout inv.sorted inv.limit inFile
      exact ⟨sorted, limit⟩

theorem callsExact {m} (reach : Reachable ((system layout).under InFile) m) :
    ∀ offset size, offset < 2 ^ 64 → 0 < size → size < 2 ^ 32 →
      (UnregisterExact layout m offset size ↔ UnregisterSettled m offset size) ∧
      (ClaimExact layout m offset size ↔ ClaimSettled m offset size) := by
  have inv := reachableInvariant (runInvariant layout) reach
  intro offset size word proper width
  exact ⟨unregisterExactIff layout inv.sorted inv.limit word proper width,
    claimExactIff layout inv.sorted inv.limit word proper width⟩

/-! Page 1 is free and the range to free starts in page 0: its head has been freed when the
conflict is met. -/

def halfCalls : List Call :=
  [.registerBlob pageSize, .registerBlob pageSize, .registerBlob 1, .unregisterBlob pageSize pageSize]

theorem halfExact :
    (UnregisterExact (appendLayout Nat (List Section))
        (halfCalls.foldl (perform (appendLayout Nat (List Section))) initial) (pageSize - 10) 20 ↔
      UnregisterSettled (halfCalls.foldl (perform (appendLayout Nat (List Section))) initial)
        (pageSize - 10) 20) ∧
    (ClaimExact (appendLayout Nat (List Section))
        (halfCalls.foldl (perform (appendLayout Nat (List Section))) initial) (pageSize - 10) 20 ↔
      ClaimSettled (halfCalls.foldl (perform (appendLayout Nat (List Section))) initial)
        (pageSize - 10) 20) :=
  callsExact _ (reachableAllowed (by decide)) (pageSize - 10) 20 (by decide) (by decide) (by decide)

theorem halfFreed :
    ¬∀ layout m, Reachable (system layout) m → ∀ offset size, offset < 2 ^ 64 → 0 < size → size < 2 ^ 32 →
      UnregisterExact layout m offset size ∧ ClaimExact layout m offset size := by
  intro all
  have run : AllAllowed (fun m c => True ∧ Words m c)
      (perform (appendLayout Nat (List Section))) initial halfCalls := by decide
  have reach := reachableUnder (reachableAllowed run)
  have exact_ := (all _ _ reach (pageSize - 10) 20 (by decide) (by decide) (by decide)).1
  have failed : (unregisterBlob (appendLayout Nat (List Section))
      (halfCalls.foldl (perform (appendLayout Nat (List Section))) initial) (pageSize - 10) 20).2 = false := by
    decide
  have after : (unregisterBlob (appendLayout Nat (List Section))
      (halfCalls.foldl (perform (appendLayout Nat (List Section))) initial) (pageSize - 10)
        20).1.freeSectionsByPage.find 0 = some [⟨pageSize - 10, 10⟩] := by decide
  have before : (halfCalls.foldl (perform (appendLayout Nat (List Section))) initial).freeSectionsByPage.entries =
      [(1, [⟨pageSize, pageSize⟩])] := by decide
  have gained := (exact_.refused failed).free.subset
    ⟨0, _, after, _, List.mem_cons_self, le_refl _, (by decide : pageSize - 10 < _)⟩
  obtain ⟨p, sections, found, s, mem, low, _⟩ := gained
  have entry := DenseMap.findMem.mp found
  rw [before] at entry
  cases List.mem_singleton.mp entry
  cases List.mem_singleton.mp mem
  exact absurd low (by decide)

end Dewfall.BlobExact
