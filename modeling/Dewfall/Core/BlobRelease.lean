import Dewfall.Core.BlobFreeSpace
import Mathlib.Data.List.TakeWhile

/-! What `unregister_blob` gives back. A blob of live bytes is inserted page by page, merged
with the sections it touches, and a free tail leaves the file. An empty blob is inserted only
where it touches a free section; the page counter must not come around. -/
namespace Dewfall.BlobRelease
open General General.OrderedIntervals BlobManager BlobFreeSpace

variable (layout : Layout Nat (List Section))

theorem belowTaken (sections : List Section) (offset : Nat) :
    ∀ s ∈ sections.takeWhile (fun s => s.offset < offset), s.offset < offset := by
  intro s mem
  simpa using List.mem_takeWhile_imp mem

theorem aboveDropped {sections : List Section} (offset : Nat)
    (ordered : Ordered Section.offset finish sections) :
    ∀ s ∈ sections.dropWhile (fun s => s.offset < offset), offset ≤ s.offset := by
  induction sections with
  | nil => simp
  | cons head rest ih =>
    obtain ⟨first, ordered⟩ := List.pairwise_cons.mp ordered
    rw [List.dropWhile_cons]
    split
    · exact ih ordered
    · rename_i high
      intro s mem
      simp only [decide_eq_true_eq, not_lt] at high
      rcases List.mem_cons.mp mem with rfl | later
      · exact high
      · exact high.trans ((Nat.le_add_right _ _).trans (first s later))

/-! ## Merging inside one page -/

theorem joinBytes {s next : Section} (touch : next.offset = finish s) :
    Set.Ico s.offset (finish ⟨s.offset, s.size + next.size⟩) =
      Set.Ico s.offset (finish s) ∪ Set.Ico next.offset (finish next) := by
  ext b
  simp only [finish, Set.mem_union, Set.mem_Ico] at touch ⊢
  omega

-- A page with one more section put between `before` and `after`, which may still be empty.
structure Gap (pageNumber : Nat) (before : List Section) (s : Section) (after : List Section) :
    Prop where
  others : PageWell pageNumber (before ++ after)
  above : ∀ x ∈ before, finish x ≤ s.offset
  below : ∀ y ∈ after, finish s ≤ y.offset
  inside : pageNumber * pageSize ≤ s.offset ∧ finish s ≤ (pageNumber + 1) * pageSize

theorem gapWell {pageNumber before s after} (gap : Gap pageNumber before s after)
    (proper : 0 < s.size) : PageWell pageNumber (before ++ s :: after) := by
  have member : ∀ x ∈ before ++ s :: after, x = s ∨ x ∈ before ++ after := by
    intro x mem
    simp only [List.mem_append, List.mem_cons] at mem ⊢
    tauto
  refine ⟨orderedInsert gap.others.ordered gap.above gap.below, ?_, ?_⟩
  · intro x mem
    rcases member x mem with rfl | old
    · exact gap.inside
    · exact gap.others.inside x old
  · intro x mem
    rcases member x mem with rfl | old
    · exact proper
    · exact gap.others.proper x old

theorem absorbLength (s : Section) (after : List Section) : (absorbNext s after).length ≤ after.length + 1 := by
  unfold absorbNext
  split
  · exact le_refl 1
  · split <;> simp

theorem absorbSeparated {pageNumber before s after} (small : pageNumber < 2 ^ 32)
    (gap : Gap pageNumber before s after) (apart : Separated (before ++ after))
    (clear : ∀ x ∈ before, finish x < s.offset) : Separated (before ++ absorbNext s after) := by
  cases after with
  | nil => exact pairwiseInsert apart clear (by simp)
  | cons next rest =>
    have nextInside := gap.others.inside next (by simp)
    have bound : (pageNumber + 1) * pageSize ≤ 2 ^ 32 * pageSize := Nat.mul_le_mul_right _ small
    have stop : s.stop = finish s := u64Small (by
      have high := gap.inside.2
      unfold finish pageSize at *
      omega)
    obtain ⟨left, right, _⟩ := List.pairwise_append.mp apart
    obtain ⟨above, tail⟩ := List.pairwise_cons.mp right
    have below := gap.below next List.mem_cons_self
    simp only [absorbNext, stop]
    split
    · rename_i touch
      have sum : u32 (s.size + next.size) = s.size + next.size := u32Small (by
        have low := gap.inside.1
        have high := nextInside.2
        unfold finish pageSize at *
        omega)
      rw [sum]
      have others : Separated (before ++ rest) :=
        apart.sublist ((List.sublist_cons_self next rest).append_left before)
      refine pairwiseInsert others clear fun y mem => ?_
      have further := above y mem
      unfold finish at *
      simp only
      omega
    · rename_i loose
      refine pairwiseInsert apart clear fun y mem => ?_
      rcases List.mem_cons.mp mem with rfl | later
      · omega
      · have further := above y later
        unfold finish at *
        omega

theorem absorbWell {pageNumber before s after} (small : pageNumber < 2 ^ 32)
    (gap : Gap pageNumber before s after)
    (proper : 0 < s.size ∨ ∃ next ∈ after.head?, next.offset = finish s) :
    PageWell pageNumber (before ++ absorbNext s after) ∧
      bytes (before ++ absorbNext s after) = bytes (before ++ s :: after) := by
  cases after with
  | nil =>
    have size : 0 < s.size := by
      rcases proper with size | ⟨next, mem, _⟩
      · exact size
      · simp at mem
    exact ⟨gapWell gap size, rfl⟩
  | cons next rest =>
    have nextMem : next ∈ before ++ next :: rest := by simp
    have nextInside := gap.others.inside next nextMem
    have nextProper := gap.others.proper next nextMem
    have bound : (pageNumber + 1) * pageSize ≤ 2 ^ 32 * pageSize := Nat.mul_le_mul_right _ small
    have stop : s.stop = finish s := u64Small (by
      have high := gap.inside.2
      unfold finish pageSize at *
      omega)
    simp only [absorbNext, stop]
    split
    · rename_i touch
      have sum : u32 (s.size + next.size) = s.size + next.size := u32Small (by
        have low := gap.inside.1
        have high := nextInside.2
        unfold finish pageSize at *
        omega)
      rw [sum]
      have around := orderedAround gap.others.ordered
      have rest : PageWell pageNumber (before ++ rest) := by
        have kept := replaceWell gap.others (withinNil next)
        rwa [List.append_nil] at kept
      have merged : Gap pageNumber before ⟨s.offset, s.size + next.size⟩ _ :=
        ⟨rest, gap.above, fun y mem => by
          have := around.2 y mem
          unfold finish at *
          simp only
          omega, gap.inside.1, by
          have := nextInside.2
          unfold finish at *
          simp only
          omega⟩
      refine ⟨gapWell merged (by simp only; omega), ?_⟩
      simp only [coverAppend, coverCons, joinBytes touch.symm, Set.union_assoc]
    · rename_i apart
      have size : 0 < s.size := by
        rcases proper with size | ⟨other, mem, touch⟩
        · exact size
        · rw [List.head?_cons, Option.mem_some_iff] at mem
          subst mem
          exact absurd touch.symm apart
      exact ⟨gapWell gap size, rfl⟩

def Touches (sections : List Section) (offset : Nat) : Prop :=
  ∃ s ∈ sections, s.offset ≤ offset ∧ offset ≤ finish s

instance (sections offset) : Decidable (Touches sections offset) := by
  unfold Touches; infer_instance

-- The split that `lower_bound` makes, once neither neighbour overlaps the piece.
structure Room (pageNumber : Nat) (before after : List Section) (piece : Section) : Prop where
  page : PageWell pageNumber (before ++ after)
  low : ∀ x ∈ before, x.offset < piece.offset ∧ finish x ≤ piece.offset
  high : ∀ y ∈ after, piece.offset ≤ y.offset ∧ finish piece ≤ y.offset
  inside : pageNumber * pageSize ≤ piece.offset ∧ finish piece ≤ (pageNumber + 1) * pageSize

theorem roomAbsorb {pageNumber before after piece} (room : Room pageNumber before after piece)
    (apart : ∀ prev ∈ before.getLast?, finish prev ≠ piece.offset)
    (proper : 0 < piece.size ∨ Touches (before ++ after) piece.offset) :
    0 < piece.size ∨ ∃ next ∈ after.head?, next.offset = finish piece := by
  rcases proper with size | ⟨s, mem, left, right⟩
  · exact Or.inl size
  rcases Nat.eq_zero_or_pos piece.size with empty | size
  · right
    have finishes : finish piece = piece.offset := by unfold finish; omega
    rcases List.mem_append.mp mem with first | last
    · exfalso
      have last := List.getLast?_eq_getLast_of_ne_nil (List.ne_nil_of_mem first)
      obtain ⟨init, shape⟩ := List.getLast?_eq_some_iff.mp last
      generalize before.getLast _ = prev at *
      have away := apart prev (by rw [last]; rfl)
      subst shape
      have around := room.low s first
      have touch : finish s = piece.offset := by omega
      rcases List.mem_append.mp first with earlier | same
      · have order := (orderedAround (List.pairwise_append.mp room.page.ordered).1).1 s earlier
        have lower := (room.low prev (by simp)).1
        omega
      · rw [List.mem_singleton.mp same] at touch
        exact away touch
    · cases after with
      | nil => simp at last
      | cons next rest =>
        refine ⟨next, rfl, ?_⟩
        have above := (room.high next List.mem_cons_self).1
        rcases List.mem_cons.mp last with rfl | later
        · omega
        · have ordered := (List.pairwise_append.mp room.page.ordered).2.1
          have order := (List.pairwise_cons.mp ordered).1 s later
          have size := room.page.proper next (by simp)
          unfold finish at *
          omega
  · exact Or.inl size

theorem roomBelow {pageNumber before after piece} (room : Room pageNumber before after piece)
    (separated : Separated (before ++ after))
    (apart : ∀ prev ∈ before.getLast?, finish prev ≠ piece.offset) :
    ∀ x ∈ before, finish x < piece.offset := by
  intro x mem
  obtain ⟨init, last, shape⟩ := List.eq_nil_or_concat before |>.resolve_left (List.ne_nil_of_mem mem)
  rw [List.concat_eq_append] at shape
  subst shape
  have highest := (room.low last (by simp)).2
  have away := apart last (by simp)
  rcases List.mem_append.mp mem with earlier | same
  · obtain ⟨left, _, _⟩ := List.pairwise_append.mp separated
    have order := (List.pairwise_append.mp left).2.2 x earlier last List.mem_cons_self
    unfold finish at *
    omega
  · rw [List.mem_singleton.mp same]
    omega

theorem roomInsert {pageNumber before after piece} (small : pageNumber < 2 ^ 32)
    (room : Room pageNumber before after piece)
    (apart : ∀ prev ∈ before.getLast?, finish prev ≠ piece.offset)
    (proper : 0 < piece.size ∨ Touches (before ++ after) piece.offset) :
    PageWell pageNumber (before ++ absorbNext piece after) ∧
      bytes (before ++ absorbNext piece after) =
        bytes (before ++ after) ∪ Set.Ico piece.offset (finish piece) ∧
      (Separated (before ++ after) → Separated (before ++ absorbNext piece after)) := by
  have gap : Gap pageNumber before piece after :=
    ⟨room.page, fun x mem => (room.low x mem).2, fun y mem => (room.high y mem).2, room.inside⟩
  obtain ⟨page, same⟩ := absorbWell small gap (roomAbsorb room apart proper)
  refine ⟨page, same.trans ?_, fun separated => ?_⟩
  · simp only [coverAppend, coverCons]
    rw [Set.union_comm (Set.Ico _ _), Set.union_assoc]
  · exact absorbSeparated small gap separated (roomBelow room separated apart)

theorem roomExtend {pageNumber init prev after piece} (small : pageNumber < 2 ^ 32)
    (room : Room pageNumber (init ++ [prev]) after piece) (touch : finish prev = piece.offset) :
    PageWell pageNumber (init ++ absorbNext ⟨prev.offset, u32 (prev.size + piece.size)⟩ after) ∧
      bytes (init ++ absorbNext ⟨prev.offset, u32 (prev.size + piece.size)⟩ after) =
        bytes (init ++ [prev] ++ after) ∪ Set.Ico piece.offset (finish piece) ∧
      (Separated (init ++ [prev] ++ after) →
        Separated (init ++ absorbNext ⟨prev.offset, u32 (prev.size + piece.size)⟩ after)) := by
  have page := room.page
  rw [List.append_assoc, List.singleton_append] at page
  have mem : prev ∈ init ++ prev :: after := by simp
  have low := (page.inside prev mem).1
  have high := room.inside.2
  have sum : u32 (prev.size + piece.size) = prev.size + piece.size := u32Small (by
    unfold finish pageSize at *
    omega)
  rw [sum]
  have kept := replaceWell page (withinNil prev)
  rw [List.append_nil] at kept
  have gap : Gap pageNumber init ⟨prev.offset, prev.size + piece.size⟩ after :=
    ⟨kept, (orderedAround page.ordered).1, fun y last => by
      have := (room.high y last).2
      unfold finish at *
      simp only
      omega, low, by unfold finish at *; simp only; omega⟩
  have size := page.proper prev mem
  obtain ⟨well, same⟩ := absorbWell small gap (Or.inl (by simp only; omega))
  refine ⟨well, same.trans ?_, fun separated => ?_⟩
  · simp only [coverAppend, coverCons, coverNil, joinBytes touch.symm, Set.union_assoc,
      Set.empty_union]
    rw [Set.union_comm (Set.Ico piece.offset _)]
  · rw [List.append_assoc, List.singleton_append] at separated
    have others : Separated (init ++ after) :=
      separated.sublist ((List.sublist_cons_self prev after).append_left init)
    refine absorbSeparated small gap others fun x earlier => ?_
    exact (List.pairwise_append.mp separated).2.2 x earlier prev List.mem_cons_self

theorem pieceStop {pageNumber piece} (small : pageNumber < 2 ^ 32)
    (inside : finish piece ≤ (pageNumber + 1) * pageSize) : piece.stop = finish piece := by
  have bound : (pageNumber + 1) * pageSize ≤ 2 ^ 32 * pageSize := Nat.mul_le_mul_right _ small
  exact u64Small (by unfold finish pageSize at *; omega)

theorem searchRoom {pageNumber sections piece} (small : pageNumber < 2 ^ 32)
    (page : PageWell pageNumber sections)
    (inside : pageNumber * pageSize ≤ piece.offset ∧ finish piece ≤ (pageNumber + 1) * pageSize)
    (clear : ∀ prev ∈ (sections.takeWhile fun s => s.offset < piece.offset).getLast?,
      ¬piece.offset < prev.stop)
    (free : ∀ next ∈ (sections.dropWhile fun s => s.offset < piece.offset).head?,
      ¬next.offset < piece.stop) :
    Room pageNumber (sections.takeWhile fun s => s.offset < piece.offset)
      (sections.dropWhile fun s => s.offset < piece.offset) piece := by
  have taken := belowTaken sections piece.offset
  have dropped := aboveDropped piece.offset page.ordered
  have split := List.takeWhile_append_dropWhile (p := fun s => s.offset < piece.offset) (l := sections)
  generalize sections.takeWhile (fun s => s.offset < piece.offset) = before at *
  generalize sections.dropWhile (fun s => s.offset < piece.offset) = after at *
  subst split
  rw [pieceStop small inside.2] at free
  obtain ⟨left, right, _⟩ := List.pairwise_append.mp page.ordered
  refine ⟨page, fun x mem => ⟨taken x mem, ?_⟩, fun y mem => ⟨dropped y mem, ?_⟩, inside⟩
  · have last := List.getLast?_eq_getLast_of_ne_nil (List.ne_nil_of_mem mem)
    obtain ⟨init, shape⟩ := List.getLast?_eq_some_iff.mp last
    have lower := clear _ last
    generalize before.getLast _ = prev at *
    subst shape
    rw [stopFinish page small (by simp)] at lower
    exact (lastHighest left (Nat.le_add_right _ _) x mem).trans (not_lt.mp lower)
  · cases after with
    | nil => simp at mem
    | cons next rest =>
      have first := free next rfl
      rcases List.mem_cons.mp mem with rfl | later
      · omega
      · have order := (List.pairwise_cons.mp right).1 y later
        unfold finish at *
        omega

theorem insertFreeWell {pageNumber sections piece result} (small : pageNumber < 2 ^ 32)
    (page : PageWell pageNumber sections)
    (inside : pageNumber * pageSize ≤ piece.offset ∧ finish piece ≤ (pageNumber + 1) * pageSize)
    (proper : 0 < piece.size ∨ Touches sections piece.offset)
    (found : insertFree sections piece = some result) :
    PageWell pageNumber result ∧
      bytes result = bytes sections ∪ Set.Ico piece.offset (finish piece) ∧
      (Separated sections → Separated result) ∧ result.length ≤ sections.length + 1 := by
  unfold insertFree at found
  dsimp only at found
  split at found
  · contradiction
  rename_i clear
  split at found
  · contradiction
  rename_i free
  simp only [Option.any_eq_true, decide_eq_true_eq, not_exists, not_and] at clear free
  have room := searchRoom small page inside clear free
  have split := List.takeWhile_append_dropWhile (p := fun s => s.offset < piece.offset) (l := sections)
  generalize sections.takeWhile (fun s => s.offset < piece.offset) = before at *
  generalize sections.dropWhile (fun s => s.offset < piece.offset) = after at *
  subst split
  split at found
  · rename_i empty
    cases Option.some.inj found
    rw [List.getLast?_eq_none_iff] at empty
    subst empty
    obtain ⟨well, same, separated⟩ := roomInsert small room (by simp) proper
    exact ⟨well, same, separated, absorbLength piece after⟩
  · rename_i prev last
    obtain ⟨init, shape⟩ := List.getLast?_eq_some_iff.mp last
    subst shape
    rw [stopFinish page small (by simp)] at found
    split at found
    · rename_i touch
      cases Option.some.inj found
      rw [List.dropLast_concat]
      obtain ⟨well, same, separated⟩ := roomExtend small room touch
      have count := absorbLength ⟨prev.offset, u32 (prev.size + piece.size)⟩ after
      refine ⟨well, same, separated, ?_⟩
      simp only [List.length_append, List.length_singleton]
      omega
    · rename_i apart
      cases Option.some.inj found
      have away : ∀ other ∈ (init ++ [prev]).getLast?, finish other ≠ piece.offset := by
        intro other mem
        rw [last, Option.mem_some_iff] at mem
        rwa [← mem]
      obtain ⟨well, same, separated⟩ := roomInsert small room away proper
      have count := absorbLength piece after
      refine ⟨well, same, separated, ?_⟩
      simp only [List.length_append, List.length_singleton]
      omega

theorem insertFreeNone {pageNumber sections piece} (small : pageNumber < 2 ^ 32)
    (page : PageWell pageNumber sections)
    (inside : finish piece ≤ (pageNumber + 1) * pageSize) (proper : 0 < piece.size)
    (missed : insertFree sections piece = none) :
    ¬Disjoint (Set.Ico piece.offset (finish piece)) (bytes sections) := by
  have below := belowTaken sections piece.offset
  have above := aboveDropped piece.offset page.ordered
  have split := List.takeWhile_append_dropWhile (p := fun s => s.offset < piece.offset) (l := sections)
  unfold insertFree at missed
  dsimp only at missed
  generalize sections.takeWhile (fun s => s.offset < piece.offset) = before at *
  generalize sections.dropWhile (fun s => s.offset < piece.offset) = after at *
  subst split
  intro apart
  have shared : ∀ b, b ∈ Set.Ico piece.offset (finish piece) → b ∉ bytes (before ++ after) :=
    fun b inside => Set.disjoint_left.mp apart inside
  split at missed
  · rename_i overlap
    obtain ⟨prev, last, past⟩ := Option.any_eq_true _ _ |>.mp overlap
    have first : prev ∈ before := List.mem_of_getLast? last
    have mem : prev ∈ before ++ after := List.mem_append_left _ first
    rw [decide_eq_true_eq, stopFinish page small mem] at past
    refine shared piece.offset ⟨le_refl _, by unfold finish; omega⟩ ⟨prev, mem, ?_, past⟩
    exact Nat.le_of_lt (below prev first)
  · split at missed
    · rename_i overlap
      obtain ⟨next, first, past⟩ := Option.any_eq_true _ _ |>.mp overlap
      have last : next ∈ after := List.mem_of_head? first
      have mem : next ∈ before ++ after := List.mem_append_right _ last
      rw [decide_eq_true_eq, pieceStop small inside] at past
      have size := page.proper next mem
      exact shared next.offset ⟨above next last, past⟩
        ⟨next, mem, le_refl _, by unfold finish; omega⟩
    · split at missed
      · contradiction
      · split at missed <;> contradiction

/-! ## The pages of a blob -/

-- The largest offset whose page number, and the one after it, fit the page counter.
def pageLimit : Nat := (2 ^ 32 - 1) * pageSize

structure PieceWell (pageNumber offset size : Nat) (piece : Section) : Prop where
  inside : pageNumber * pageSize ≤ piece.offset ∧ finish piece ≤ (pageNumber + 1) * pageSize
  bytes : Set.Ico piece.offset (finish piece) = blobBytes offset size ∩ pageRange pageNumber
  proper : 0 < piece.size

theorem pieceInWell {pageNumber offset size} (limit : offset + size ≤ pageLimit)
    (starts : offset < (pageNumber + 1) * pageSize) (reaches : pageNumber * pageSize < offset + size)
    (proper : 0 < size) : PieceWell pageNumber offset size (pieceIn pageNumber offset size) := by
  have width : pageLimit < 2 ^ 64 := by decide
  have stop : u64 (offset + size) = offset + size := u64Small (by omega)
  have next : (pageNumber + 1) * pageSize = pageNumber * pageSize + pageSize := Nat.succ_mul _ _
  have positive : 0 < pageSize := by decide
  have word : pageSize < 2 ^ 32 := by decide
  have length : u32 (sub64 (min (offset + size) (pageNumber * pageSize + pageSize))
      (max offset (pageNumber * pageSize))) =
      min (offset + size) (pageNumber * pageSize + pageSize) - max offset (pageNumber * pageSize) := by
    rw [sub64Small (by omega) (by omega), u32Small (by omega)]
  have shape : pieceIn pageNumber offset size = ⟨max offset (pageNumber * pageSize),
      min (offset + size) (pageNumber * pageSize + pageSize) - max offset (pageNumber * pageSize)⟩ := by
    simp only [pieceIn, stop, length]
  rw [shape]
  refine ⟨⟨by simp only; omega, by simp only [finish]; omega⟩, ?_, by simp only; omega⟩
  ext b
  simp only [finish, Set.mem_inter_iff, Set.mem_Ico]
  omega

theorem freePage {byPage : Sections} {pageNumber piece} (small : pageNumber < 2 ^ 32)
    (well : MapWell byPage)
    (inside : pageNumber * pageSize ≤ piece.offset ∧ finish piece ≤ (pageNumber + 1) * pageSize)
    (proper : 0 < piece.size ∨ Touches ((byPage.find pageNumber).getD []) piece.offset)
    {sections} (found : insertFree ((byPage.find pageNumber).getD []) piece = some sections) :
    MapWell (putSections layout (byPage.emplace layout pageNumber []) pageNumber sections) ∧
      mapBytes (putSections layout (byPage.emplace layout pageNumber []) pageNumber sections) =
        mapBytes byPage ∪ Set.Ico piece.offset (finish piece) ∧
      Tidy byPage (putSections layout (byPage.emplace layout pageNumber []) pageNumber sections) 24 := by
  obtain ⟨page, gained, kept, count⟩ :=
    insertFreeWell small (pageWellGetD well pageNumber) inside proper found
  have updated := emplacePutUpdated layout byPage pageNumber sections
  exact ⟨updatedWell well small page updated, updatedGrow well updated gained,
    tidyEmplacePut layout kept count⟩

theorem unregisterPagesWell {offset size} (endPage turns pageNumber) (byPage : Sections)
    (limit : offset + size ≤ pageLimit) (proper : 0 < size)
    (covers : offset + size ≤ (endPage + 1) * pageSize) (reaches : endPage * pageSize < offset + size)
    (starts : offset < (pageNumber + 1) * pageSize) (order : pageNumber ≤ endPage + 1)
    (enough : endPage + 1 < pageNumber + turns) (well : MapWell byPage)
    (apart : Disjoint (blobBytes offset size ∩ Set.Ici (pageNumber * pageSize)) (mapBytes byPage)) :
    ∃ after, unregisterPages layout offset size endPage turns pageNumber byPage = (after, true) ∧
      MapWell after ∧
      mapBytes after = mapBytes byPage ∪ (blobBytes offset size ∩ Set.Ici (pageNumber * pageSize)) ∧
      Tidy byPage after (24 * (endPage + 1 - pageNumber)) := by
  induction turns generalizing pageNumber byPage with
  | zero => omega
  | succ turns ih =>
    unfold unregisterPages
    by_cases past : endPage < pageNumber
    · rw [if_pos past]
      have same : pageNumber = endPage + 1 := by omega
      subst same
      have none : blobBytes offset size ∩ Set.Ici ((endPage + 1) * pageSize) = ∅ :=
        Set.eq_empty_of_forall_notMem fun b both =>
          absurd both.1.2 (not_lt.mpr (covers.trans both.2))
      exact ⟨byPage, rfl, well, by rw [none, Set.union_empty], tidyRefl _ _⟩
    have within : pageNumber ≤ endPage := by omega
    have pageReach : pageNumber * pageSize < offset + size :=
      (Nat.mul_le_mul_right _ within).trans_lt reaches
    have counter : pageNumber + 1 < 2 ^ 32 := by
      have scaled : pageNumber * pageSize < (2 ^ 32 - 1) * pageSize := pageReach.trans_le limit
      have := Nat.lt_of_mul_lt_mul_right scaled
      omega
    have piece := pieceInWell limit starts pageReach proper
    have split : blobBytes offset size ∩ Set.Ici (pageNumber * pageSize) =
        blobBytes offset size ∩ pageRange pageNumber ∪
          blobBytes offset size ∩ Set.Ici ((pageNumber + 1) * pageSize) := by
      have next : (pageNumber + 1) * pageSize = pageNumber * pageSize + pageSize := Nat.succ_mul _ _
      ext b
      simp only [Set.mem_inter_iff, Set.mem_union, Set.mem_Ico, Set.mem_Ici]
      omega
    rw [split] at apart ⊢
    obtain ⟨here, later⟩ := Set.disjoint_union_left.mp apart
    dsimp only
    rw [if_neg past, emplaceFind, Option.getD_some, u32Small counter]
    cases found : insertFree ((byPage.find pageNumber).getD []) (pieceIn pageNumber offset size) with
    | none =>
      have overlap := insertFreeNone (by omega) (pageWellGetD well pageNumber) piece.inside.2
        piece.proper found
      rw [piece.bytes] at overlap
      have part : bytes ((byPage.find pageNumber).getD []) ⊆ mapBytes byPage := by
        have eq := pageBytesEq well pageNumber
        unfold pageBytes at eq
        rw [eq]
        exact Set.inter_subset_left
      exact absurd (here.mono_right part) overlap
    | some sections =>
      obtain ⟨wellNext, bytesNext, tidyNext⟩ := freePage layout (by omega) well piece.inside
        (Or.inl piece.proper) found
      rw [piece.bytes] at bytesNext
      have next : (pageNumber + 1) * pageSize < (pageNumber + 1 + 1) * pageSize := by
        rw [Nat.succ_mul (pageNumber + 1)]
        exact Nat.lt_add_of_pos_right (by decide)
      have stillApart : Disjoint (blobBytes offset size ∩ Set.Ici ((pageNumber + 1) * pageSize))
          (mapBytes (putSections layout (byPage.emplace layout pageNumber []) pageNumber sections)) := by
        rw [bytesNext, Set.disjoint_union_right]
        refine ⟨later, Set.disjoint_left.mpr ?_⟩
        intro b high low
        exact absurd low.2.2 (not_lt.mpr high.2)
      obtain ⟨after, result, wellAfter, bytesAfter, tidyAfter⟩ :=
        ih (pageNumber + 1) _ (starts.trans next) (by omega) (by omega) wellNext stillApart
      exact ⟨after, result, wellAfter, by rw [bytesAfter, bytesNext, Set.union_assoc],
        tidyTrans tidyNext tidyAfter (by omega)⟩

/-! ## The free tail -/

theorem trimOnce {m : FreeBlobManager} {pageNumber sections back} (well : Well m)
    (found : m.freeSectionsByPage.find pageNumber = some sections) (isBack : sections.getLast? = some back)
    (ends : finish back = m.nextOffset) :
    let trimmed : FreeBlobManager := ⟨sub64 m.nextOffset back.size,
      putSections layout m.freeSectionsByPage pageNumber sections.dropLast⟩
    Well trimmed ∧ freeBytes trimmed = freeBytes m ∧ trimmed.nextOffset = back.offset ∧
      mapBytes trimmed.freeSectionsByPage = mapBytes m.freeSectionsByPage \ Set.Ico back.offset m.nextOffset := by
  obtain ⟨dropped, left, had⟩ := dropBackWell layout well.map found isBack
  have lower : back.offset ≤ m.nextOffset := ends ▸ Nat.le_add_right _ _
  have start : sub64 m.nextOffset back.size = back.offset := by
    unfold finish at ends
    rw [sub64Small well.small (by omega)]
    omega
  dsimp only
  rw [start]
  refine ⟨⟨dropped, ?_, ?_⟩, ?_, rfl, by rw [left, ends]⟩
  · intro c inside
    rw [left] at inside
    have low : c < m.nextOffset := well.below inside.1
    exact not_le.mp fun high => inside.2 ⟨high, by omega⟩
  · exact lower.trans_lt well.small
  · unfold freeBytes
    rw [left]
    ext c
    have inside : c ∈ Set.Ico back.offset (finish back) → c ∈ mapBytes m.freeSectionsByPage :=
      fun here => had here
    simp only [Set.mem_union, Set.mem_sdiff, Set.mem_Ico, Set.mem_Ici] at inside ⊢
    rcases Nat.lt_or_ge c back.offset with low | high
    · constructor
      · rintro (here | here)
        · exact Or.inl here.1
        · omega
      · rintro (here | here)
        · exact Or.inl ⟨here, fun both => absurd both.1 (not_le.mpr low)⟩
        · omega
    · rcases Nat.lt_or_ge c m.nextOffset with below | behind
      · exact ⟨fun _ => Or.inl (inside ⟨high, by omega⟩), fun _ => Or.inr high⟩
      · exact ⟨fun _ => Or.inr behind, fun _ => Or.inr high⟩

theorem trimWell (turns) {m : FreeBlobManager} (well : Well m) :
    Well (trimTail layout turns m) ∧ freeBytes (trimTail layout turns m) = freeBytes m := by
  induction turns generalizing m with
  | zero => exact ⟨well, rfl⟩
  | succ turns ih =>
    unfold trimTail
    split
    · exact ⟨well, rfl⟩
    rename_i pageNumber sections back there
    obtain ⟨⟨p, found⟩, last, lastBack⟩ := Option.bind_eq_some_iff.mp there
    obtain ⟨b, isBack, same⟩ := Option.map_eq_some_iff.mp lastBack
    cases same
    split
    · exact ⟨well, rfl⟩
    rename_i ends
    have present := DenseMap.findMem.mpr (List.mem_of_getLast? last)
    obtain ⟨small, _, page⟩ := well.map _ _ present
    rw [stopFinish page small (List.mem_of_getLast? isBack), ne_eq, not_not] at ends
    obtain ⟨wellNext, same, _, _⟩ := trimOnce layout well present isBack ends
    dsimp only
    split
    · obtain ⟨wellEnd, rest⟩ := ih wellNext
      exact ⟨wellEnd, rest.trans same⟩
    · exact ⟨wellNext, same⟩

theorem trimTidy (turns) (m : FreeBlobManager) :
    Tidy m.freeSectionsByPage (trimTail layout turns m).freeSectionsByPage 0 := by
  induction turns generalizing m with
  | zero => exact tidyRefl _ 0
  | succ turns ih =>
    unfold trimTail
    split
    · exact tidyRefl _ 0
    rename_i pageNumber sections back there
    obtain ⟨⟨p, found⟩, last, lastBack⟩ := Option.bind_eq_some_iff.mp there
    obtain ⟨_, _, same⟩ := Option.map_eq_some_iff.mp lastBack
    cases same
    split
    · exact tidyRefl _ 0
    have dropped := dropBackTidy layout (DenseMap.findMem.mpr (List.mem_of_getLast? last))
    dsimp only
    split
    · exact tidyTrans dropped (ih ⟨_, _⟩) (le_refl 0)
    · exact dropped

theorem trimLower (turns) {m : FreeBlobManager} (well : Well m) :
    (trimTail layout turns m).nextOffset ≤ m.nextOffset := by
  induction turns generalizing m with
  | zero => exact le_refl _
  | succ turns ih =>
    unfold trimTail
    split
    · exact le_refl _
    rename_i pageNumber sections back there
    obtain ⟨⟨p, found⟩, last, lastBack⟩ := Option.bind_eq_some_iff.mp there
    obtain ⟨b, isBack, same⟩ := Option.map_eq_some_iff.mp lastBack
    cases same
    split
    · exact le_refl _
    rename_i ends
    have present := DenseMap.findMem.mpr (List.mem_of_getLast? last)
    obtain ⟨small, _, page⟩ := well.map _ _ present
    rw [stopFinish page small (List.mem_of_getLast? isBack), ne_eq, not_not] at ends
    obtain ⟨wellNext, _, lower, _⟩ := trimOnce layout well present isBack ends
    have less : back.offset ≤ m.nextOffset := ends ▸ Nat.le_add_right _ _
    dsimp only at lower ⊢
    split
    · exact (ih wellNext).trans (lower.trans_le less)
    · exact lower.trans_le less

/-! ## One release -/

-- The page counter stays in range, and an empty blob inserts no section: it is not at offset
-- zero, and opens a page or touches a free section of its page.
def UnregisterSound (m : FreeBlobManager) (offset size : Nat) : Prop :=
  offset + size ≤ pageLimit ∧ (0 < size ∨ 0 < offset ∧ (pageSize ∣ offset ∨
    Touches ((m.freeSectionsByPage.find (page offset)).getD []) offset))

instance (m offset size) : Decidable (UnregisterSound m offset size) := by
  unfold UnregisterSound; infer_instance

-- An empty blob is found again: it lies in the file and inside no free section.
def EmptyFound (m : FreeBlobManager) (offset : Nat) : Prop :=
  offset ≤ m.nextOffset ∧
    ∀ s ∈ (m.freeSectionsByPage.find (page offset)).getD [], s.offset < offset → finish s ≤ offset

instance (m offset) : Decidable (EmptyFound m offset) := by
  unfold EmptyFound; infer_instance

theorem pageNumberEq {offset : Nat} (limit : offset ≤ pageLimit) : page offset = offset / pageSize :=
  u32Small ((Nat.div_le_div_right limit).trans_lt (by decide))

theorem endPageEq {stop : Nat} (limit : stop ≤ pageLimit) (positive : 0 < stop) :
    u32 (sub64 stop 1 / pageSize) = (stop - 1) / pageSize := by
  have width : pageLimit < 2 ^ 64 := by decide
  rw [sub64Small (by omega) positive]
  exact u32Small ((Nat.div_le_div_right (by omega : stop - 1 ≤ pageLimit)).trans_lt (by decide))

theorem liveBelow {m : FreeBlobManager} {offset size} (proper : 0 < size)
    (live : Disjoint (blobBytes offset size) (freeBytes m)) : offset + size ≤ m.nextOffset := by
  by_contra high
  have last : offset + size - 1 ∈ blobBytes offset size := ⟨by omega, by omega⟩
  exact Set.disjoint_left.mp live last (Or.inr (show m.nextOffset ≤ _ by omega))

theorem unregisterWalk {m : FreeBlobManager} {offset size} (well : Well m)
    (limit : offset + size ≤ pageLimit) (proper : 0 < size)
    (below : offset + size ≤ m.nextOffset)
    (live : Disjoint (blobBytes offset size) (mapBytes m.freeSectionsByPage)) :
    ∃ after, unregisterPages layout offset size ((offset + size - 1) / pageSize)
        ((offset + size - 1) / pageSize + 2) (offset / pageSize) m.freeSectionsByPage = (after, true) ∧
      MapWell after ∧
      mapBytes after = mapBytes m.freeSectionsByPage ∪ blobBytes offset size ∧
      Tidy m.freeSectionsByPage after (24 * ((offset + size - 1) / pageSize + 1 - offset / pageSize)) ∧
      unregisterBlob layout m offset size =
        (if offset + size = m.nextOffset then
          trimTail layout after.entries.length ⟨m.nextOffset, after⟩
        else ⟨m.nextOffset, after⟩, true) := by
  have width : pageLimit < 2 ^ 64 := by decide
  have positive : 0 < pageSize := by decide
  have stop : u64 (offset + size) = offset + size := u64Small (by omega)
  have lastPage := Nat.div_add_mod (offset + size - 1) pageSize
  have lastRest := Nat.mod_lt (offset + size - 1) positive
  have firstPage := Nat.div_add_mod offset pageSize
  have firstRest := Nat.mod_lt offset positive
  have order : offset / pageSize ≤ (offset + size - 1) / pageSize := Nat.div_le_div_right (by omega)
  have all : blobBytes offset size ∩ Set.Ici (offset / pageSize * pageSize) = blobBytes offset size := by
    refine Set.inter_eq_left.mpr fun b inside => ?_
    exact (Nat.div_mul_le_self offset pageSize).trans inside.1
  obtain ⟨after, result, wellAfter, bytesAfter, tidyAfter⟩ :=
    unregisterPagesWell layout ((offset + size - 1) / pageSize) ((offset + size - 1) / pageSize + 2)
      (offset / pageSize) m.freeSectionsByPage limit proper
      (by rw [Nat.succ_mul, Nat.mul_comm]; omega) (by rw [Nat.mul_comm]; omega)
      (by rw [Nat.succ_mul, Nat.mul_comm]; omega) (by omega)
      ((Nat.lt_succ_self _).trans_le (Nat.le_add_left _ _)) well.map (by rwa [all])
  rw [all] at bytesAfter
  refine ⟨after, result, wellAfter, bytesAfter, tidyAfter, ?_⟩
  unfold unregisterBlob
  dsimp only
  rw [stop, if_neg (not_lt.mpr below), endPageEq limit (by omega),
    pageNumberEq (by omega : offset ≤ pageLimit), result]
  dsimp only
  split <;> rfl

theorem unregisterLive {m : FreeBlobManager} {offset size} (well : Well m)
    (limit : offset + size ≤ pageLimit) (proper : 0 < size)
    (below : offset + size ≤ m.nextOffset)
    (live : Disjoint (blobBytes offset size) (mapBytes m.freeSectionsByPage)) :
    ∃ after, MapWell after ∧
      mapBytes after = mapBytes m.freeSectionsByPage ∪ blobBytes offset size ∧
      Tidy m.freeSectionsByPage after (24 * ((offset + size - 1) / pageSize + 1 - offset / pageSize)) ∧
      unregisterBlob layout m offset size =
        (if offset + size = m.nextOffset then
          trimTail layout after.entries.length ⟨m.nextOffset, after⟩
        else ⟨m.nextOffset, after⟩, true) := by
  obtain ⟨after, _, freed⟩ := unregisterWalk layout well limit proper below live
  exact ⟨after, freed⟩

theorem unregisterDone {offset size endPage turns pageNumber} {byPage : Sections}
    (past : endPage < pageNumber) :
    unregisterPages layout offset size endPage (turns + 1) pageNumber byPage = (byPage, true) :=
  if_pos past

theorem emptyPiece {offset pageNumber : Nat} (limit : offset ≤ pageLimit)
    (low : pageNumber * pageSize ≤ offset) (high : offset ≤ pageNumber * pageSize + pageSize) :
    pieceIn pageNumber offset 0 = ⟨offset, 0⟩ := by
  have width : pageLimit < 2 ^ 64 := by decide
  have nothing : u32 (sub64 offset offset) = 0 := by
    rw [sub64Small (by omega) (le_refl _), Nat.sub_self]
    rfl
  simp only [pieceIn, Nat.add_zero, u64Small (by omega : offset < 2 ^ 64), max_eq_left low,
    min_eq_left high, nothing]

theorem insertEmptyNone {pageNumber offset : Nat} {sections : List Section} (small : pageNumber < 2 ^ 32)
    (page : PageWell pageNumber sections) (limit : offset ≤ pageLimit) (missed : insertFree sections ⟨offset, 0⟩ = none) :
    ∃ s ∈ sections, s.offset < offset ∧ offset < finish s := by
  have width : pageLimit < 2 ^ 64 := by decide
  have stop : (⟨offset, 0⟩ : Section).stop = offset := u64Small (by dsimp only; omega)
  unfold insertFree at missed
  dsimp only at missed
  rw [stop] at missed
  split at missed
  · rename_i inside
    obtain ⟨s, last, strays⟩ := (Option.any_eq_true ..).mp inside
    have mem := List.mem_of_getLast? last
    have there : s ∈ sections := (List.takeWhile_prefix _).subset mem
    rw [decide_eq_true_eq, stopFinish page small there] at strays
    have before : decide (s.offset < offset) = true := List.mem_takeWhile_imp (p := fun s : Section => s.offset < offset) mem
    exact ⟨s, there, of_decide_eq_true before, strays⟩
  · split at missed
    · rename_i ahead
      obtain ⟨s, first, below⟩ := (Option.any_eq_true ..).mp ahead
      have kept := List.head?_dropWhile_not (fun s : Section => decide (s.offset < offset)) sections
      rw [first] at kept
      rw [decide_eq_true_eq] at below
      exact absurd below (of_decide_eq_false kept)
    · split at missed
      · cases missed
      · split at missed <;> cases missed

theorem unregisterTouching {offset turns} {byPage : Sections} (limit : offset ≤ pageLimit)
    (small : offset / pageSize + 1 < 2 ^ 32) (well : MapWell byPage)
    (touch : Touches ((byPage.find (offset / pageSize)).getD []) offset) :
    MapWell (unregisterPages layout offset 0 (offset / pageSize) (turns + 2) (offset / pageSize)
        byPage).1 ∧
      mapBytes (unregisterPages layout offset 0 (offset / pageSize) (turns + 2) (offset / pageSize)
        byPage).1 = mapBytes byPage ∧
      Tidy byPage (unregisterPages layout offset 0 (offset / pageSize) (turns + 2) (offset / pageSize)
        byPage).1 24 ∧
      ((∀ s ∈ (byPage.find (offset / pageSize)).getD [], s.offset < offset → finish s ≤ offset) →
        (unregisterPages layout offset 0 (offset / pageSize) (turns + 2) (offset / pageSize) byPage).2 = true) := by
  have low := Nat.div_mul_le_self offset pageSize
  have high : offset ≤ offset / pageSize * pageSize + pageSize := by
    have := Nat.lt_div_mul_add (a := offset) (b := pageSize) (by decide)
    omega
  have inside : offset / pageSize * pageSize ≤ (⟨offset, 0⟩ : Section).offset ∧
      finish ⟨offset, 0⟩ ≤ (offset / pageSize + 1) * pageSize := by
    rw [Nat.succ_mul]
    exact ⟨low, high⟩
  unfold unregisterPages
  dsimp only
  rw [if_neg (lt_irrefl _), emplaceFind, Option.getD_some, emptyPiece limit low high,
    u32Small small]
  cases found : insertFree ((byPage.find (offset / pageSize)).getD []) ⟨offset, 0⟩ with
  | none =>
    have present : byPage.find (offset / pageSize) ≠ none := by
      intro absent
      simp [absent, Touches] at touch
    have same : byPage.emplace layout (offset / pageSize) [] = byPage := by
      rw [DenseMap.emplace, dif_neg present]
    simp only [same]
    refine ⟨well, trivial, tidyRefl _ _, fun clear => ?_⟩
    obtain ⟨sections, there⟩ := Option.ne_none_iff_exists'.mp present
    rw [there, Option.getD_some] at found clear
    obtain ⟨s, mem, before, behind⟩ := insertEmptyNone (by omega) (well _ _ there).2.2 limit found
    exact absurd (clear s mem before) (not_le.mpr behind)
  | some sections =>
    obtain ⟨wellNext, bytesNext, tidyNext⟩ := freePage layout (by omega) well inside
      (Or.inr touch) found
    simp only [unregisterDone layout (Nat.lt_succ_self _)]
    refine ⟨wellNext, bytesNext.trans ?_, tidyNext, fun _ => trivial⟩
    rw [show finish ⟨offset, 0⟩ = offset from rfl, Set.Ico_self, Set.union_empty]

theorem unregisterEmptyPages {m : FreeBlobManager} {offset} (turns) (well : Well m)
    (sound : UnregisterSound m offset 0) :
    MapWell (unregisterPages layout offset 0 ((offset - 1) / pageSize) (turns + 2)
        (offset / pageSize) m.freeSectionsByPage).1 ∧
      mapBytes (unregisterPages layout offset 0 ((offset - 1) / pageSize) (turns + 2)
        (offset / pageSize) m.freeSectionsByPage).1 = mapBytes m.freeSectionsByPage ∧
      Tidy m.freeSectionsByPage (unregisterPages layout offset 0 ((offset - 1) / pageSize) (turns + 2)
        (offset / pageSize) m.freeSectionsByPage).1 24 ∧
      (EmptyFound m offset → (unregisterPages layout offset 0 ((offset - 1) / pageSize) (turns + 2)
        (offset / pageSize) m.freeSectionsByPage).2 = true) := by
  obtain ⟨limit, size | ⟨positive, place⟩⟩ := sound
  · exact absurd size (lt_irrefl 0)
  rw [Nat.add_zero] at limit
  rw [pageNumberEq limit] at place
  have divides := Nat.div_add_mod offset pageSize
  by_cases opens : pageSize ∣ offset
  · have past : (offset - 1) / pageSize < offset / pageSize := by
      obtain ⟨k, rfl⟩ := opens
      rw [Nat.mul_div_cancel_left k (by decide)]
      exact (Nat.div_lt_iff_lt_mul (by decide)).mpr (by rw [Nat.mul_comm k]; omega)
    rw [unregisterDone layout past]
    exact ⟨well.map, rfl, tidyRefl _ _, fun _ => rfl⟩
  · have rest : 0 < offset % pageSize := by
      exact Nat.pos_of_ne_zero fun none => opens (Nat.dvd_of_mod_eq_zero none)
    have same : (offset - 1) / pageSize = offset / pageSize := by
      have bound := Nat.mod_lt offset (show 0 < pageSize by decide)
      refine Nat.div_eq_of_lt_le ?_ ?_
      · rw [Nat.mul_comm]; omega
      · rw [Nat.succ_mul, Nat.mul_comm]; omega
    have small : offset / pageSize + 1 < 2 ^ 32 := by
      have bound : offset / pageSize * pageSize < (2 ^ 32 - 1) * pageSize :=
        (by rw [Nat.mul_comm]; omega : _ < offset).trans_le limit
      have := Nat.lt_of_mul_lt_mul_right bound
      omega
    rw [same]
    obtain ⟨kept, equal, tidy, done⟩ := @unregisterTouching layout _ turns _ limit small well.map (place.resolve_left opens)
    refine ⟨kept, equal, tidy, fun clear => done ?_⟩
    rw [← pageNumberEq limit]
    exact clear.2

theorem unregisterEmpty {m : FreeBlobManager} {offset} (well : Well m)
    (sound : UnregisterSound m offset 0) :
    Well (unregisterBlob layout m offset 0).1 ∧
      freeBytes (unregisterBlob layout m offset 0).1 = freeBytes m ∧
      (unregisterBlob layout m offset 0).1.nextOffset ≤ m.nextOffset ∧
      (Merged m.freeSectionsByPage → Merged (unregisterBlob layout m offset 0).1.freeSectionsByPage) ∧
      (EmptyFound m offset → (unregisterBlob layout m offset 0).2 = true) := by
  have width : pageLimit < 2 ^ 64 := by decide
  have limit : offset ≤ pageLimit := sound.1
  have positive : 0 < offset := by
    rcases sound.2 with size | place
    · exact absurd size (lt_irrefl 0)
    · exact place.1
  obtain ⟨map, same, tidy, done⟩ := unregisterEmptyPages layout ((offset - 1) / pageSize) well sound
  have kept : Well ⟨m.nextOffset, (unregisterPages layout offset 0 ((offset - 1) / pageSize)
      ((offset - 1) / pageSize + 2) (offset / pageSize) m.freeSectionsByPage).1⟩ :=
    ⟨map, by rw [same]; exact well.below, well.small⟩
  unfold unregisterBlob
  dsimp only
  rw [Nat.add_zero, u64Small (by omega), endPageEq limit positive, pageNumberEq limit]
  split
  · rename_i beyond
    exact ⟨well, rfl, le_refl _, id, fun found => absurd found.1 (not_le.mpr beyond)⟩
  generalize unregisterPages layout offset 0 _ _ _ _ = result at *
  obtain ⟨byPage, ok⟩ := result
  have all : freeBytes ⟨m.nextOffset, byPage⟩ = freeBytes m := by
    unfold freeBytes
    rw [same]
  cases ok with
  | false => exact ⟨kept, all, le_refl _, tidy.merged, fun found => (nomatch done found)⟩
  | true =>
    dsimp only
    split
    · obtain ⟨trimmed, rest⟩ := trimWell layout byPage.entries.length kept
      refine ⟨trimmed, rest.trans all, trimLower layout _ kept, fun merged => ?_, fun _ => rfl⟩
      exact (trimTidy layout _ _).merged (tidy.merged merged)
    · exact ⟨kept, all, le_refl _, tidy.merged, fun _ => rfl⟩

theorem unregisterSpec {m : FreeBlobManager} {offset size} (well : Well m)
    (sound : UnregisterSound m offset size)
    (live : Disjoint (blobBytes offset size) (freeBytes m)) :
    Well (unregisterBlob layout m offset size).1 ∧
      freeBytes (unregisterBlob layout m offset size).1 = freeBytes m ∪ blobBytes offset size ∧
      (0 < size → (unregisterBlob layout m offset size).2 = true) ∧
      (unregisterBlob layout m offset size).1.nextOffset ≤ m.nextOffset ∧
      (Merged m.freeSectionsByPage →
        Merged (unregisterBlob layout m offset size).1.freeSectionsByPage) := by
  rcases Nat.eq_zero_or_pos size with empty | proper
  · subst empty
    obtain ⟨kept, same, lower, merged, _⟩ := unregisterEmpty layout well sound
    have none : blobBytes offset 0 = ∅ := Set.Ico_self offset
    exact ⟨kept, by rw [none, Set.union_empty, same], fun size => absurd size (lt_irrefl 0), lower,
      merged⟩
  · have below := liveBelow proper live
    obtain ⟨after, map, gained, tidy, result⟩ := unregisterLive layout well sound.1 proper below
      (live.mono_right Set.subset_union_left)
    have kept : Well ⟨m.nextOffset, after⟩ := by
      refine ⟨map, ?_, well.small⟩
      rw [gained]
      exact Set.union_subset well.below fun b inside => inside.2.trans_le below
    have more : freeBytes ⟨m.nextOffset, after⟩ = freeBytes m ∪ blobBytes offset size := by
      unfold freeBytes
      rw [gained, Set.union_right_comm]
    rw [result]
    refine ⟨?_, ?_, fun _ => rfl, ?_, fun merged => ?_⟩
    · dsimp only
      split
      · exact (trimWell layout _ kept).1
      · exact kept
    · dsimp only
      split
      · exact (trimWell layout _ kept).2.trans more
      · exact more
    · dsimp only
      split
      · exact trimLower layout _ kept
      · exact le_refl _
    · dsimp only
      split
      · exact (trimTidy layout _ _).merged (tidy.merged merged)
      · exact tidy.merged merged

end Dewfall.BlobRelease
