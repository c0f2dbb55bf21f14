import Dewfall.Core.BlobExact

/-! The numbers of a free list fit the words the code keeps them in, whatever calls have been made:
64-bit offsets, 32-bit sizes and page numbers. Nothing is said here about the sections' order or
about the bytes they stand for. -/
namespace Dewfall.BlobWords
open General General.Transition BlobManager BlobFreeSpace BlobExact

variable (layout : Layout Nat (List Section))

def SectionWords (sections : List Section) : Prop := ∀ s ∈ sections, s.offset < 2 ^ 64 ∧ s.size < 2 ^ 32

def MapWords (byPage : Sections) : Prop := ∀ e ∈ byPage.entries, e.1 < 2 ^ 32 ∧ SectionWords e.2

structure ManagerWords (m : FreeBlobManager) : Prop where
  nextOffset : m.nextOffset < 2 ^ 64
  map : MapWords m.freeSectionsByPage

theorem u64Lt (n : Nat) : u64 n < 2 ^ 64 := Nat.mod_lt n (by decide)

theorem wordsSublist {sections fewer : List Section} (words : SectionWords sections)
    (sub : fewer.Sublist sections) : SectionWords fewer :=
  fun s mem => words s (sub.subset mem)

theorem wordsFind {byPage : Sections} {pageNumber sections} (words : MapWords byPage)
    (found : byPage.find pageNumber = some sections) : pageNumber < 2 ^ 32 ∧ SectionWords sections :=
  words _ (DenseMap.findMem.mp found)

theorem wordsGetD {byPage : Sections} (words : MapWords byPage) (pageNumber : Nat) :
    SectionWords ((byPage.find pageNumber).getD []) := by
  cases found : byPage.find pageNumber with
  | none => exact fun s mem => absurd mem List.not_mem_nil
  | some sections => exact (wordsFind words found).2

theorem wordsPut {byPage : Sections} {pageNumber sections} (words : MapWords byPage)
    (small : pageNumber < 2 ^ 32) (new : SectionWords sections) :
    MapWords (putSections layout byPage pageNumber sections) := by
  unfold putSections
  split
  · intro e mem
    have old := (layout.erasePerm byPage.entries pageNumber byPage.distinct).mem_iff.mp mem
    exact words e (List.mem_filter.mp old).1
  · intro e mem
    obtain ⟨old, there, same⟩ := List.mem_map.mp mem
    split at same
    · rw [← same]
      exact ⟨small, new⟩
    · rw [← same]
      exact words old there

theorem wordsEmplace {byPage : Sections} {pageNumber} (words : MapWords byPage)
    (small : pageNumber < 2 ^ 32) : MapWords (byPage.emplace layout pageNumber []) := by
  unfold DenseMap.emplace
  split
  · intro e mem
    rcases List.mem_cons.mp ((layout.emplacePerm byPage.entries pageNumber []).mem_iff.mp mem) with rfl | old
    · exact ⟨small, fun s mem => absurd mem List.not_mem_nil⟩
    · exact words e old
  · exact words

/-! ## register_blob -/

theorem cutWords {fit : Fit} (size) (words : SectionWords (fit.before ++ fit.chosen :: fit.after)) :
    SectionWords (cut fit size) := by
  have others : ∀ s, s ∈ fit.before ∨ s ∈ fit.after → s.offset < 2 ^ 64 ∧ s.size < 2 ^ 32 := by
    intro s either
    refine words s ?_
    rcases either with h | h <;> simp [h]
  unfold cut
  dsimp only
  split
  · intro s mem
    exact others s (List.mem_append.mp mem)
  · intro s mem
    rcases List.mem_append.mp mem with first | rest
    · exact others s (Or.inl first)
    · rcases List.mem_cons.mp rest with rfl | last
      · exact ⟨u64Lt _, u32Lt _⟩
      · exact others s (Or.inr last)

theorem consumeWords (pageNumber remaining : Nat) {byPage : Sections} (words : MapWords byPage) :
    MapWords (consumeTail layout pageNumber remaining byPage) := by
  induction pageNumber generalizing remaining byPage with
  | zero => exact words
  | succ previous ih =>
    unfold consumeTail
    split
    · exact words
    split
    · exact words
    rename_i sections back there
    split
    · exact words
    obtain ⟨old, found, last⟩ := Option.bind_eq_some_iff.mp there
    obtain ⟨_, _, same⟩ := Option.map_eq_some_iff.mp last
    cases same
    obtain ⟨small, kept⟩ := wordsFind words found
    exact ih _ (wordsPut layout words small (wordsSublist kept (List.dropLast_sublist _)))

theorem registerWords {m : FreeBlobManager} (size) (words : ManagerWords m) :
    ManagerWords (registerBlob layout m size).1 := by
  unfold registerBlob
  cases scanned : scan size 0 0 m.freeSectionsByPage.entries with
  | none => exact ⟨u64Lt _, words.map⟩
  | some fit =>
    obtain ⟨small, kept⟩ := words.map _ (BlobRegister.scanFit (Or.inl rfl) scanned).entry
    exact ⟨words.nextOffset, consumeWords layout _ _ (wordsPut layout words.map small (cutWords size kept))⟩

/-! ## unregister_blob -/

theorem absorbWords {s : Section} {after : List Section} (here : s.offset < 2 ^ 64 ∧ s.size < 2 ^ 32)
    (words : SectionWords after) : SectionWords (absorbNext s after) := by
  unfold absorbNext
  split
  · exact fun x mem => List.mem_singleton.mp mem ▸ here
  · rename_i next rest
    split
    · intro x mem
      rcases List.mem_cons.mp mem with rfl | later
      · exact ⟨here.1, u32Lt _⟩
      · exact words x (List.mem_cons_of_mem _ later)
    · intro x mem
      rcases List.mem_cons.mp mem with rfl | later
      · exact here
      · exact words x later

theorem insertWords {sections : List Section} {piece result} (words : SectionWords sections)
    (here : piece.offset < 2 ^ 64 ∧ piece.size < 2 ^ 32) (found : insertFree sections piece = some result) :
    SectionWords result := by
  have before := wordsSublist words (List.takeWhile_sublist fun s => s.offset < piece.offset)
  have after := wordsSublist words (List.dropWhile_sublist fun s => s.offset < piece.offset)
  unfold insertFree at found
  dsimp only at found
  split at found
  · contradiction
  split at found
  · contradiction
  split at found
  · cases Option.some.inj found
    exact absorbWords here after
  · rename_i prev last
    split at found
    · cases Option.some.inj found
      have mem := before prev (List.mem_of_getLast? last)
      intro x either
      rcases List.mem_append.mp either with first | rest
      · exact before x (List.dropLast_subset _ first)
      · exact @absorbWords ⟨prev.offset, u32 (prev.size + piece.size)⟩ _ ⟨mem.1, u32Lt _⟩ after x rest
    · cases Option.some.inj found
      intro x either
      rcases List.mem_append.mp either with first | rest
      · exact before x first
      · exact absorbWords here after x rest

theorem unregisterPagesWords {offset size endPage} (turns pageNumber) {byPage : Sections}
    (word : offset < 2 ^ 64) (small : pageNumber < 2 ^ 32) (words : MapWords byPage) :
    MapWords (unregisterPages layout offset size endPage turns pageNumber byPage).1 := by
  induction turns generalizing pageNumber byPage with
  | zero => exact words
  | succ turns ih =>
    unfold unregisterPages
    split
    · exact words
    dsimp only
    have present := wordsEmplace layout words small
    split
    · exact present
    · rename_i sections found
      have start : (pieceIn pageNumber offset size).offset < 2 ^ 64 := by
        have bound : pageNumber * pageSize < 2 ^ 32 * pageSize := Nat.mul_lt_mul_of_pos_right small (by decide)
        exact max_lt word (bound.trans (by decide))
      have new := insertWords (wordsGetD present pageNumber) ⟨start, u32Lt _⟩ found
      exact ih _ (u32Lt _) (wordsPut layout present small new)

theorem trimWords (turns) {m : FreeBlobManager} (words : ManagerWords m) :
    ManagerWords (trimTail layout turns m) := by
  induction turns generalizing m with
  | zero => exact words
  | succ turns ih =>
    unfold trimTail
    split
    · exact words
    rename_i pageNumber sections back there
    obtain ⟨⟨p, found⟩, last, lastBack⟩ := Option.bind_eq_some_iff.mp there
    obtain ⟨_, _, same⟩ := Option.map_eq_some_iff.mp lastBack
    cases same
    split
    · exact words
    obtain ⟨small, kept⟩ := words.map _ (List.mem_of_getLast? last)
    have next : ManagerWords ⟨sub64 m.nextOffset back.size,
        putSections layout m.freeSectionsByPage pageNumber sections.dropLast⟩ :=
      ⟨u64Lt _,
        wordsPut layout words.map small (wordsSublist kept (List.dropLast_sublist _))⟩
    dsimp only
    split
    · exact ih next
    · exact next

theorem unregisterWords {m : FreeBlobManager} {offset} (size) (words : ManagerWords m) (word : offset < 2 ^ 64) :
    ManagerWords (unregisterBlob layout m offset size).1 := by
  unfold unregisterBlob
  dsimp only
  have walked := @unregisterPagesWords layout offset size (u32 (sub64 (u64 (offset + size)) 1 / pageSize))
    (u32 (sub64 (u64 (offset + size)) 1 / pageSize) + 2) (page offset) m.freeSectionsByPage word (u32Lt _) words.map
  split
  · exact words
  generalize unregisterPages layout offset size _ _ _ _ = result at *
  obtain ⟨byPage, done⟩ := result
  cases done with
  | false => exact ⟨words.nextOffset, walked⟩
  | true =>
    dsimp only
    split
    · exact trimWords layout _ ⟨words.nextOffset, walked⟩
    · exact ⟨words.nextOffset, walked⟩

/-! ## claim_blob -/

theorem fillWords {start} (turns gapPos) {m : FreeBlobManager} (word : start < 2 ^ 64) (words : ManagerWords m) :
    ManagerWords (fillGap layout start turns gapPos m).1 := by
  induction turns generalizing gapPos m with
  | zero => exact words
  | succ turns ih =>
    unfold fillGap
    split
    · exact words
    rename_i low
    dsimp only
    have freed := unregisterWords layout
      (u32 (sub64 (min start (u64 ((gapPos / pageSize + 1) * pageSize))) gapPos)) words
      ((not_le.mp low).trans word)
    generalize unregisterBlob layout m gapPos _ = result at *
    obtain ⟨left, done⟩ := result
    cases done with
    | false => exact freed
    | true => exact ih _ freed

theorem remnantsWords {pos pieceEnd : Nat} {s : Section} (here : s.offset < 2 ^ 64) (word : pieceEnd < 2 ^ 64) :
    SectionWords (remnants pos pieceEnd s) := by
  unfold remnants
  intro x mem
  split at mem
  · cases mem
  split at mem
  · exact List.mem_singleton.mp mem ▸ ⟨word, u32Lt _⟩
  split at mem
  · exact List.mem_singleton.mp mem ▸ ⟨here, u32Lt _⟩
  · rcases List.mem_pair.mp mem with rfl | rfl
    · exact ⟨here, u32Lt _⟩
    · exact ⟨word, u32Lt _⟩

theorem carveWords {pos pieceEnd} {sections result : List Section} (words : SectionWords sections)
    (word : pieceEnd < 2 ^ 64) (found : carve pos pieceEnd sections = some result) : SectionWords result := by
  obtain ⟨before, s, after, rfl, _, _, rfl⟩ := BlobClaim.carveSplit found
  intro x mem
  rcases List.mem_append.mp mem with first | last
  · rcases List.mem_append.mp first with old | new
    · exact words x (List.mem_append_left _ old)
    · exact remnantsWords (words s (by simp)).1 word x new
  · exact words x (by simp [last])

theorem claimPagesWords {stop} (turns pos) {byPage : Sections} (word : stop < 2 ^ 64) (words : MapWords byPage) :
    MapWords (claimPages layout stop turns pos byPage).1 := by
  induction turns generalizing pos byPage with
  | zero => exact words
  | succ turns ih =>
    unfold claimPages
    split
    · exact words
    dsimp only
    split
    · exact words
    · rename_i sections found
      obtain ⟨old, there, carved⟩ := Option.bind_eq_some_iff.mp found
      obtain ⟨small, kept⟩ := wordsFind words there
      exact ih _ (wordsPut layout words small (carveWords kept ((min_le_left _ _).trans_lt word) carved))

theorem claimWords {m : FreeBlobManager} {offset} (size) (words : ManagerWords m) (word : offset < 2 ^ 64) :
    ManagerWords (claimBlob layout m offset size).1 := by
  unfold claimBlob
  dsimp only
  split
  · exact words
  split
  · exact fillWords layout _ _ word ⟨u64Lt _, words.map⟩
  split
  · exact words
  · exact ⟨words.nextOffset, claimPagesWords layout _ _ (u64Lt _) words.map⟩

theorem managerWords {m} (reach : Reachable (system layout) m) : ManagerWords m := by
  have holds : Inductive (system layout) ManagerWords := by
    refine ⟨fun m first => ?_, fun m c after words step => ?_⟩
    · cases first
      exact ⟨by decide, fun e mem => absurd mem List.not_mem_nil⟩
    · obtain ⟨allowed, rfl⟩ := step
      cases c with
      | registerBlob size => exact registerWords layout size words
      | unregisterBlob offset size => exact unregisterWords layout size words allowed.1
      | claimBlob offset size => exact claimWords layout size words allowed.1
  exact reachableInvariant holds reach

end Dewfall.BlobWords
