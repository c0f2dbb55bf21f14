import Dewfall.Core.BlobRelease
import Mathlib.Order.Interval.Set.LinearOrder

/-! What `claim_blob` takes. Behind the file's end the gap in front of the claimed range is
released page by page; inside the file the range is cut out of the free sections that hold it.
A claim that fails halfway only loses free bytes. -/
namespace Dewfall.BlobClaim
open General General.OrderedIntervals BlobManager BlobFreeSpace BlobRelease

variable (layout : Layout Nat (List Section))

/-! ## Behind the end -/

theorem gapPiece {gapPos start : Nat} (order : gapPos < start) (limit : start ≤ pageLimit) :
    ∃ size, 0 < size ∧ gapPos + size ≤ start ∧
      min start (u64 ((gapPos / pageSize + 1) * pageSize)) = gapPos + size ∧
      u32 (sub64 (gapPos + size) gapPos) = size ∧
      (gapPos + size - 1) / pageSize = gapPos / pageSize ∧
      (gapPos + size = start ∨ (gapPos + size) / pageSize = gapPos / pageSize + 1) := by
  have width : pageLimit < 2 ^ 64 := by decide
  have word : pageSize < 2 ^ 32 := by decide
  have positive : 0 < pageSize := by decide
  have divides := Nat.div_add_mod gapPos pageSize
  have rest := Nat.mod_lt gapPos positive
  have next : (gapPos / pageSize + 1) * pageSize = pageSize * (gapPos / pageSize) + pageSize := by
    rw [Nat.succ_mul, Nat.mul_comm]
  have page : gapPos / pageSize + 1 ≤ 2 ^ 32 - 1 := by
    have bound : gapPos / pageSize < 2 ^ 32 - 1 :=
      (Nat.div_lt_iff_lt_mul positive).mpr (order.trans_le limit)
    omega
  have pageEnd : (gapPos / pageSize + 1) * pageSize ≤ pageLimit := Nat.mul_le_mul_right _ page
  rw [u64Small (by omega), next]
  rw [next] at pageEnd
  refine ⟨min start (pageSize * (gapPos / pageSize) + pageSize) - gapPos, by omega, by omega,
    by omega, ?_, ?_, ?_⟩
  · rw [sub64Small (by omega) (by omega), u32Small (by omega)]
    omega
  · refine Nat.div_eq_of_lt_le ?_ ?_
    · rw [Nat.mul_comm]
      omega
    · rw [next]
      omega
  · rcases Nat.lt_or_ge (pageSize * (gapPos / pageSize) + pageSize) start with short | long
    · right
      rw [show gapPos + (min start (pageSize * (gapPos / pageSize) + pageSize) - gapPos) =
        (gapPos / pageSize + 1) * pageSize by omega]
      exact Nat.mul_div_cancel _ positive
    · left
      omega

-- How many pages a gap lies on.
def gapPages (gapPos start : Nat) : Nat :=
  if start ≤ gapPos then 0 else (start - 1) / pageSize + 1 - gapPos / pageSize

theorem gapPagesStep {gapPos start size : Nat} (proper : 0 < size) (within : gapPos + size ≤ start)
    (next : gapPos + size = start ∨ (gapPos + size) / pageSize = gapPos / pageSize + 1) :
    1 + gapPages (gapPos + size) start ≤ gapPages gapPos start := by
  unfold gapPages
  rw [if_neg (by omega : ¬start ≤ gapPos)]
  have above : gapPos / pageSize ≤ (start - 1) / pageSize := Nat.div_le_div_right (by omega)
  split
  · omega
  · rename_i more
    have further : (gapPos + size) / pageSize ≤ (start - 1) / pageSize := Nat.div_le_div_right (by omega)
    rcases next with done | page
    · omega
    · omega

theorem fillGapWell {start turns gapPos} {m : FreeBlobManager} (limit : start ≤ pageLimit)
    (order : gapPos ≤ start) (enough : start < gapPos + turns) (ends : start < m.nextOffset)
    (well : Well m) (clear : mapBytes m.freeSectionsByPage ⊆ Set.Iio gapPos) :
    ∃ after, fillGap layout start turns gapPos m = (⟨m.nextOffset, after⟩, true) ∧ MapWell after ∧
      mapBytes after = mapBytes m.freeSectionsByPage ∪ Set.Ico gapPos start ∧
      Tidy m.freeSectionsByPage after (24 * gapPages gapPos start) := by
  induction turns generalizing gapPos m with
  | zero => omega
  | succ turns ih =>
    unfold fillGap
    by_cases done : start ≤ gapPos
    · rw [if_pos done, Set.Ico_eq_empty (not_lt.mpr done), Set.union_empty]
      exact ⟨m.freeSectionsByPage, rfl, well.map, rfl, tidyRefl _ _⟩
    obtain ⟨size, proper, within, piece, length, samePage, nextPage⟩ := gapPiece (not_le.mp done) limit
    have live : Disjoint (blobBytes gapPos size) (mapBytes m.freeSectionsByPage) :=
      Set.disjoint_left.mpr fun b inside free => absurd (clear free) (not_lt.mpr inside.1)
    obtain ⟨byPage, map, gained, tidy, result⟩ := unregisterLive layout well
      (within.trans limit) proper (by omega) live
    rw [samePage] at tidy
    rw [if_neg (by omega)] at result
    rw [if_neg done]
    simp only [piece, length, result]
    have kept : Well ⟨m.nextOffset, byPage⟩ := by
      refine ⟨map, ?_, well.small⟩
      rw [gained]
      exact Set.union_subset well.below fun b inside => by
        have high : b < gapPos + size := inside.2
        exact (by omega : b < m.nextOffset)
    have clearNext : mapBytes byPage ⊆ Set.Iio (gapPos + size) := by
      rw [gained]
      refine Set.union_subset (clear.trans ?_) fun b inside => inside.2
      exact Set.Iio_subset_Iio (Nat.le_add_right _ _)
    obtain ⟨after, filled, mapAfter, bytesAfter, tidyAfter⟩ :=
      @ih (gapPos + size) ⟨m.nextOffset, byPage⟩ within (by omega) ends kept clearNext
    refine ⟨after, filled, mapAfter, bytesAfter.trans ?_, tidyTrans tidy tidyAfter ?_⟩
    · rw [gained, Set.union_assoc, Set.Ico_union_Ico_eq_Ico (Nat.le_add_right _ _) within]
    · have pages := gapPagesStep proper within nextPage
      omega

/-! ## Inside the file -/

theorem remnantsWithin {pageNumber sections s pos pieceEnd} (small : pageNumber < 2 ^ 32)
    (page : PageWell pageNumber sections) (mem : s ∈ sections) (low : s.offset ≤ pos)
    (order : pos < pieceEnd) (high : pieceEnd ≤ finish s) :
    Within s (remnants pos pieceEnd s) ∧
      Set.Ico s.offset (finish s) \ bytes (remnants pos pieceEnd s) = Set.Ico pos pieceEnd ∧
      Separated (remnants pos pieceEnd s) ∧ (remnants pos pieceEnd s).length ≤
        if pos = s.offset ∨ pieceEnd = finish s then 1 else 2 := by
  have size := sectionSmall page mem
  have word : pageSize < 2 ^ 32 := by decide
  have stop := stopFinish page small mem
  have finishes : finish s = s.offset + s.size := rfl
  have width : finish s < 2 ^ 64 := stop ▸ Nat.mod_lt _ (by decide)
  have left : u32 (sub64 pos s.offset) = pos - s.offset := by
    rw [sub64Small (by omega) low, u32Small (by omega)]
  have right : u32 (sub64 (finish s) pieceEnd) = finish s - pieceEnd := by
    rw [sub64Small width high, u32Small (by omega)]
  unfold remnants
  rw [stop, left, right]
  split
  · rename_i whole
    refine ⟨withinNil s, ?_, List.Pairwise.nil, Nat.zero_le _⟩
    rw [show bytes [] = ∅ from coverNil _ _, Set.sdiff_empty, whole.1, whole.2]
  split
  · rename_i first
    refine ⟨withinOne ⟨by simp only; omega, by simp only [finish] at *; omega, by simp only; omega⟩, ?_,
      List.pairwise_singleton _ _, ?_⟩
    · ext b
      simp only [coverCons, coverNil, Set.union_empty, finish, Set.mem_sdiff, Set.mem_Ico] at *
      omega
    · rw [if_pos (Or.inl first)]
      exact le_refl 1
  split
  · rename_i last
    refine ⟨withinOne ⟨by simp only; omega, by simp only [finish] at *; omega, by simp only; omega⟩, ?_,
      List.pairwise_singleton _ _, ?_⟩
    · ext b
      simp only [coverCons, coverNil, Set.union_empty, finish, Set.mem_sdiff, Set.mem_Ico] at *
      omega
    · rw [if_pos (Or.inr last)]
      exact le_refl 1
  · rename_i first last
    have parted : Separated [⟨s.offset, pos - s.offset⟩, ⟨pieceEnd, finish s - pieceEnd⟩] := by
      refine List.pairwise_pair.mpr ?_
      simp only [finish] at *
      omega
    refine ⟨⟨?_, ?_⟩, ?_, parted, ?_⟩
    · refine List.pairwise_pair.mpr ?_
      simp only [finish] at *
      omega
    · intro z either
      rcases List.mem_pair.mp either with rfl | rfl
      · exact ⟨by simp only; omega, by simp only [finish] at *; omega, by simp only; omega⟩
      · exact ⟨by simp only; omega, by simp only [finish] at *; omega, by simp only; omega⟩
    · ext b
      simp only [coverCons, coverNil, Set.union_empty, finish, Set.mem_sdiff, Set.mem_union,
        Set.mem_Ico] at *
      omega
    · rw [if_neg (by tauto)]
      exact le_refl 2

theorem carveSplit {pos pieceEnd sections result} (found : carve pos pieceEnd sections = some result) :
    ∃ before s after, sections = before ++ s :: after ∧ s.offset ≤ pos ∧ pieceEnd ≤ s.stop ∧
      result = before ++ remnants pos pieceEnd s ++ after := by
  induction sections generalizing result with
  | nil => simp [carve] at found
  | cons s rest ih =>
    simp only [carve] at found
    split at found
    · obtain ⟨later, there, same⟩ := Option.map_eq_some_iff.mp found
      obtain ⟨before, t, after, shape, low, high, tail⟩ := ih there
      exact ⟨s :: before, t, after, by rw [shape]; rfl, low, high, by rw [← same, tail]; rfl⟩
    · rename_i inside
      exact ⟨[], s, rest, rfl, by omega, by omega, (Option.some.inj found).symm⟩

theorem carveWell {pageNumber sections pos pieceEnd result} (small : pageNumber < 2 ^ 32)
    (page : PageWell pageNumber sections) (order : pos < pieceEnd)
    (found : carve pos pieceEnd sections = some result) :
    PageWell pageNumber result ∧ Set.Ico pos pieceEnd ⊆ bytes sections ∧
      bytes result = bytes sections \ Set.Ico pos pieceEnd ∧
      (Separated sections → Separated result) ∧ result.length ≤ sections.length +
        if pos = pageNumber * pageSize ∨ pieceEnd = (pageNumber + 1) * pageSize then 0 else 1 := by
  obtain ⟨before, s, after, rfl, low, high, rfl⟩ := carveSplit found
  have mem : s ∈ before ++ s :: after := by simp
  rw [stopFinish page small mem] at high
  obtain ⟨within, removed, parted, count⟩ := remnantsWithin small page mem low order high
  refine ⟨replaceWell page within, ?_, ?_, fun kept => separatedReplace kept parted within, ?_⟩
  · exact (Set.Ico_subset_Ico low high).trans (coverMember mem)
  · rw [replaceBytes page within, removed]
  · have inside := page.inside s mem
    simp only [List.length_append, List.length_cons]
    split at count
    · omega
    · rw [if_neg (by omega)]
      omega

-- A page without two sections that touch holds the piece in one of them.
theorem separatedHolds {sections : List Section} {pos pieceEnd} (kept : Separated sections)
    (order : pos < pieceEnd) (inside : Set.Ico pos pieceEnd ⊆ bytes sections) :
    ∃ s ∈ sections, s.offset ≤ pos ∧ pieceEnd ≤ finish s := by
  obtain ⟨s, mem, low, high⟩ := inside ⟨le_refl pos, order⟩
  refine ⟨s, mem, low, Nat.le_of_not_lt fun short => ?_⟩
  obtain ⟨other, there, under, past⟩ := inside (⟨Nat.le_of_lt high, short⟩ : finish s ∈ Set.Ico pos pieceEnd)
  have away : s ≠ other := by
    rintro rfl
    exact absurd past (lt_irrefl _)
  obtain ⟨before, after, rfl⟩ := List.append_of_mem mem
  obtain ⟨_, right, across⟩ := List.pairwise_append.mp kept
  rcases List.mem_append.mp there with first | rest
  · have order := across other first s List.mem_cons_self
    unfold finish at *
    omega
  · have later := (List.mem_cons.mp rest).resolve_left away.symm
    have order := (List.pairwise_cons.mp right).1 other later
    omega

theorem carveDone {pos pieceEnd} {sections : List Section}
    (holds : ∃ s ∈ sections, s.offset ≤ pos ∧ pieceEnd ≤ s.stop) : carve pos pieceEnd sections ≠ none := by
  induction sections with
  | nil => simp at holds
  | cons s rest ih =>
    unfold carve
    split
    · rename_i outside
      obtain ⟨t, mem, low, high⟩ := holds
      rcases List.mem_cons.mp mem with rfl | later
      · omega
      · simpa using ih ⟨t, later, low, high⟩
    · simp

theorem claimPiece {pos stop : Nat} (order : pos < stop) (limit : stop ≤ pageLimit) :
    pos < min stop (u32 (page pos + 1) * pageSize) := by
  have positive : 0 < pageSize := by decide
  have divides := Nat.div_add_mod pos pageSize
  have rest := Nat.mod_lt pos positive
  have bound : pos / pageSize < 2 ^ 32 - 1 :=
    (Nat.div_lt_iff_lt_mul positive).mpr (order.trans_le limit)
  rw [pageNumberEq (by omega), u32Small (by omega), Nat.succ_mul, Nat.mul_comm]
  omega

theorem claimEdge {pos stop : Nat} (order : pos < stop) (limit : stop ≤ pageLimit) :
    (pageSize ∣ pos → pos = page pos * pageSize) ∧
      (min stop (u32 (page pos + 1) * pageSize) = stop ∨
        min stop (u32 (page pos + 1) * pageSize) = (page pos + 1) * pageSize) := by
  have bound : pos / pageSize < 2 ^ 32 - 1 :=
    (Nat.div_lt_iff_lt_mul (by decide)).mpr (order.trans_le limit)
  rw [pageNumberEq (by omega), u32Small (by omega)]
  exact ⟨fun aligned => (Nat.div_mul_cancel aligned).symm, min_choice _ _⟩

structure Taken (before : Sections) (pos stop : Nat) (after : Sections) (claimed : Bool) : Prop where
  map : MapWell after
  fewer : mapBytes after ⊆ mapBytes before
  room : claimed = true → Set.Ico pos stop ⊆ mapBytes before
  gone : claimed = true → mapBytes after = mapBytes before \ Set.Ico pos stop
  tidy : Tidy before after (if stop ≤ pos ∨ pageSize ∣ pos then 0 else 16)

-- One page's part of the claim.
structure Carved (before : Sections) (pos pieceEnd : Nat) (after : Sections) : Prop where
  map : MapWell after
  room : Set.Ico pos pieceEnd ⊆ mapBytes before
  gone : mapBytes after = mapBytes before \ Set.Ico pos pieceEnd
  tidy : Tidy before after (16 * if pos = page pos * pageSize ∨ pieceEnd = (page pos + 1) * pageSize then 0 else 1)

theorem carvePage {byPage : Sections} {pos pieceEnd result} (well : MapWell byPage) (order : pos < pieceEnd)
    (found : (byPage.find (page pos)).bind (carve pos pieceEnd) = some result) :
    Carved byPage pos pieceEnd (putSections layout byPage (page pos) result) := by
  obtain ⟨sections, present, carved⟩ := Option.bind_eq_some_iff.mp found
  obtain ⟨small, _, here⟩ := well _ _ present
  obtain ⟨kept, room, left, separated, count⟩ := carveWell small here order carved
  have updated := putUpdated layout present result
  refine ⟨updatedWell well small kept updated, fun b inside => ⟨_, _, present, room inside⟩, ?_,
    tidyPut layout _ present separated count⟩
  exact updatedShrink well updated (room.trans (bytesInPage here)) (by rw [left, pageBytesSome present])

theorem claimPagesWell {stop} (turns pos) {byPage : Sections} (limit : stop ≤ pageLimit)
    (well : MapWell byPage) :
    Taken byPage pos stop (claimPages layout stop turns pos byPage).1
      (claimPages layout stop turns pos byPage).2 := by
  have failed : Taken byPage pos stop byPage false :=
    ⟨well, Set.Subset.rfl, fun h => absurd h Bool.false_ne_true, fun h => absurd h Bool.false_ne_true,
      tidyRefl _ _⟩
  induction turns generalizing pos byPage with
  | zero => exact failed
  | succ turns ih =>
    unfold claimPages
    by_cases done : stop ≤ pos
    · rw [if_pos done]
      have none : Set.Ico pos stop = ∅ := Set.Ico_eq_empty (not_lt.mpr done)
      exact ⟨well, Set.Subset.rfl, fun _ => by simp [none], fun _ => by simp [none], tidyRefl _ _⟩
    rw [if_neg done]
    dsimp only
    have order := claimPiece (not_le.mp done) limit
    have within : min stop (u32 (page pos + 1) * pageSize) ≤ stop := min_le_left _ _
    have edge := claimEdge (not_le.mp done) limit
    generalize min stop (u32 (page pos + 1) * pageSize) = pieceEnd at *
    cases found : (byPage.find (page pos)).bind (carve pos pieceEnd) with
    | none => exact failed
    | some result =>
      have carved := carvePage layout well order found
      have next := ih pieceEnd carved.map
        ⟨carved.map, Set.Subset.rfl, fun h => absurd h Bool.false_ne_true,
          fun h => absurd h Bool.false_ne_true, tidyRefl _ _⟩
      dsimp only
      refine ⟨next.map, next.fewer.trans (carved.gone ▸ Set.sdiff_subset), ?_, ?_, ?_⟩
      · intro ok
        rw [← Set.Ico_union_Ico_eq_Ico (Nat.le_of_lt order) within]
        refine Set.union_subset carved.room ((next.room ok).trans ?_)
        rw [carved.gone]
        exact Set.sdiff_subset
      · intro ok
        rw [← Set.Ico_union_Ico_eq_Ico (Nat.le_of_lt order) within, ← Set.sdiff_sdiff, ← carved.gone]
        exact next.gone ok
      · have last : stop ≤ pieceEnd ∨ pageSize ∣ pieceEnd := by
          rcases edge.2 with same | same
          · exact Or.inl (Nat.le_of_eq same.symm)
          · exact Or.inr (same ▸ Nat.dvd_mul_left _ _)
        have rest := next.tidy
        rw [if_pos last] at rest
        refine tidyTrans carved.tidy rest ?_
        split
        · exact Nat.zero_le _
        · rename_i inner
          have ragged : ¬(stop ≤ pos ∨ pageSize ∣ pos) := by
            rintro (empty | aligned)
            · exact done empty
            · exact inner (Or.inl (edge.1 aligned))
          rw [if_neg ragged]

theorem carveFound {byPage : Sections} {pos pieceEnd} (well : MapWell byPage) (merged : Merged byPage)
    (order : pos < pieceEnd) (room : Set.Ico pos pieceEnd ⊆ mapBytes byPage)
    (low : page pos * pageSize ≤ pos) (high : pieceEnd ≤ (page pos + 1) * pageSize) :
    (byPage.find (page pos)).bind (carve pos pieceEnd) ≠ none := by
  have here : Set.Ico pos pieceEnd ⊆ pageBytes byPage (page pos) := by
    rw [pageBytesEq well]
    exact fun b inside => ⟨room inside, low.trans inside.1, inside.2.trans_le high⟩
  cases found : byPage.find (page pos) with
  | none =>
    have empty := here (⟨le_refl pos, order⟩ : pos ∈ Set.Ico pos pieceEnd)
    simp [pageBytes, found] at empty
  | some sections =>
    rw [pageBytesSome found] at here
    obtain ⟨small, _, well⟩ := well _ _ found
    obtain ⟨s, mem, first, last⟩ := separatedHolds (merged _ _ found) order here
    exact carveDone ⟨s, mem, first, by rwa [stopFinish well small mem]⟩

theorem claimPagesDone {stop} (turns pos) {byPage : Sections} (limit : stop ≤ pageLimit)
    (well : MapWell byPage) (merged : Merged byPage) (order : pos ≤ stop) (enough : stop < pos + turns)
    (room : Set.Ico pos stop ⊆ mapBytes byPage) : (claimPages layout stop turns pos byPage).2 = true := by
  induction turns generalizing pos byPage with
  | zero => omega
  | succ turns ih =>
    unfold claimPages
    by_cases done : stop ≤ pos
    · rw [if_pos done]
    rw [if_neg done]
    dsimp only
    have proper := claimPiece (not_le.mp done) limit
    have within : min stop (u32 (page pos + 1) * pageSize) ≤ stop := min_le_left _ _
    have high : min stop (u32 (page pos + 1) * pageSize) ≤ (page pos + 1) * pageSize :=
      (min_le_right _ _).trans (Nat.mul_le_mul_right _ (u32Le _))
    have low : page pos * pageSize ≤ pos := by
      rw [pageNumberEq (order.trans limit)]
      exact Nat.div_mul_le_self _ _
    generalize min stop (u32 (page pos + 1) * pageSize) = pieceEnd at *
    cases found : (byPage.find (page pos)).bind (carve pos pieceEnd) with
    | none =>
      have part := (Set.Ico_subset_Ico_right within).trans room
      exact absurd found (carveFound well merged proper part low high)
    | some result =>
      have carved := carvePage layout well proper found
      refine ih pieceEnd carved.map (carved.tidy.merged merged) within (by omega) fun b inside => ?_
      rw [carved.gone]
      exact ⟨room ⟨(Nat.le_of_lt proper).trans inside.1, inside.2⟩,
        fun own => absurd own.2 (not_lt.mpr inside.1)⟩

/-! ## One claim -/

-- Neither the range nor the gap in front of it leaves the pages the counter can name; ranges that
-- straddle the file's end are refused.
def ClaimSound (m : FreeBlobManager) (offset size : Nat) : Prop :=
  size = 0 ∨ offset + size < 2 ^ 64 ∧
    if m.nextOffset ≤ offset then m.nextOffset = offset ∨ offset ≤ pageLimit
    else m.nextOffset < offset + size ∨ offset + size ≤ pageLimit

instance (m offset size) : Decidable (ClaimSound m offset size) := by
  unfold ClaimSound; infer_instance

theorem fillNothing {start turns} (m : FreeBlobManager) :
    fillGap layout start (turns + 1) start m = (m, true) :=
  if_pos (le_refl start)

theorem claimBehind {m : FreeBlobManager} {offset size} (well : Well m) (proper : 0 < size)
    (behind : m.nextOffset ≤ offset) (fits : offset + size < 2 ^ 64)
    (gap : m.nextOffset = offset ∨ offset ≤ pageLimit) :
    ∃ after, fillGap layout offset (offset + 1) m.nextOffset ⟨offset + size, m.freeSectionsByPage⟩ =
        (⟨offset + size, after⟩, true) ∧ MapWell after ∧
      mapBytes after = mapBytes m.freeSectionsByPage ∪ Set.Ico m.nextOffset offset ∧
      Tidy m.freeSectionsByPage after (24 * gapPages m.nextOffset offset) := by
  rcases gap with none | limit
  · rw [none, fillNothing, Set.Ico_self, Set.union_empty]
    exact ⟨_, rfl, well.map, rfl, tidyRefl _ _⟩
  · have grown : Well ⟨offset + size, m.freeSectionsByPage⟩ :=
      ⟨well.map, well.below.trans (Set.Iio_subset_Iio (by simp only; omega)), fits⟩
    exact fillGapWell layout limit behind (by omega) (by simp only; omega) grown well.below

-- How far the list of free sections may grow.
def claimGrowth (m : FreeBlobManager) (offset : Nat) : Nat :=
  if m.nextOffset ≤ offset then 24 * gapPages m.nextOffset offset else 16

theorem claimSpec {m : FreeBlobManager} {offset size} (well : Well m)
    (sound : ClaimSound m offset size) :
    Well (claimBlob layout m offset size).1 ∧
      freeBytes (claimBlob layout m offset size).1 ⊆ freeBytes m ∧
      ((claimBlob layout m offset size).2 = true → blobBytes offset size ⊆ freeBytes m ∧
        freeBytes (claimBlob layout m offset size).1 = freeBytes m \ blobBytes offset size) ∧
      Tidy m.freeSectionsByPage (claimBlob layout m offset size).1.freeSectionsByPage
        (claimGrowth m offset) := by
  unfold claimBlob claimGrowth
  dsimp only
  split
  · exact ⟨well, Set.Subset.rfl, fun h => absurd h Bool.false_ne_true, tidyRefl _ _⟩
  rename_i proper
  obtain ⟨fits, place⟩ := sound.resolve_left proper
  rw [u64Small fits]
  split
  · rename_i behind
    rw [if_pos behind] at place
    obtain ⟨after, result, map, gained, tidy⟩ := claimBehind layout well (by omega) behind fits place
    rw [result]
    have room : blobBytes offset size ⊆ freeBytes m := fun b inside => Or.inr (behind.trans inside.1)
    have left : freeBytes ⟨offset + size, after⟩ = freeBytes m \ blobBytes offset size := by
      ext b
      have low : b ∈ mapBytes m.freeSectionsByPage → b < m.nextOffset := fun inside => well.below inside
      simp only [freeBytes, gained, Set.mem_union, Set.mem_sdiff, Set.mem_Ico, Set.mem_Ici]
      by_cases inside : b ∈ mapBytes m.freeSectionsByPage
      · have := low inside
        simp only [inside, true_or, true_and, true_iff]
        omega
      · simp only [inside, false_or]
        omega
    refine ⟨⟨map, ?_, fits⟩, left.subset.trans Set.sdiff_subset, fun _ => ⟨room, left⟩, tidy⟩
    rw [gained]
    refine Set.union_subset (well.below.trans (Set.Iio_subset_Iio (by simp only; omega))) ?_
    intro b inGap
    exact inGap.2.trans_le (Nat.le_add_right _ _)
  · rename_i inside
    rw [if_neg inside] at place
    split
    · exact ⟨well, Set.Subset.rfl, fun h => absurd h Bool.false_ne_true, tidyRefl _ _⟩
    rename_i within
    have taken := claimPagesWell layout (offset + size + 1) offset
      (place.resolve_left within) well.map
    generalize claimPages layout (offset + size) (offset + size + 1) offset _ = result at *
    obtain ⟨byPage, claimed⟩ := result
    refine ⟨⟨taken.map, taken.fewer.trans well.below, well.small⟩,
      Set.union_subset_union_left _ taken.fewer, fun ok => ⟨?_, ?_⟩, ?_⟩
    · exact (taken.room ok).trans Set.subset_union_left
    · have below : Disjoint (Set.Ici m.nextOffset) (Set.Ico offset (offset + size)) :=
        Set.disjoint_left.mpr fun b high own => by
          have low : b < m.nextOffset := well.below (taken.room ok own)
          exact absurd low (not_lt.mpr high)
      unfold freeBytes
      dsimp only
      rw [taken.gone ok, Set.union_sdiff_distrib, below.sdiff_eq_left]
    · refine tidyTrans taken.tidy (tidyRefl _ 0) ?_
      split <;> omega

-- A free range on one side of the file's end is always claimed.
theorem claimDone {m : FreeBlobManager} {offset size} (well : Well m) (merged : Merged m.freeSectionsByPage)
    (proper : 0 < size) (limit : offset + size ≤ pageLimit) (room : blobBytes offset size ⊆ freeBytes m)
    (side : m.nextOffset ≤ offset ∨ offset + size ≤ m.nextOffset) :
    (claimBlob layout m offset size).2 = true := by
  have width : pageLimit < 2 ^ 64 := by decide
  unfold claimBlob
  dsimp only
  rw [u64Small (by omega), if_neg (by omega)]
  split
  · rename_i behind
    obtain ⟨after, result, _⟩ := claimBehind layout well proper behind (by omega) (Or.inr (by omega))
    rw [result]
  · rename_i low
    rw [if_neg (by omega)]
    refine claimPagesDone layout _ offset limit well.map merged (Nat.le_add_right _ _) (by omega) ?_
    intro b inside
    refine (room inside).resolve_right fun high => ?_
    have top := inside.2
    have bottom : m.nextOffset ≤ b := high
    omega

end Dewfall.BlobClaim
