import Dewfall.Core.BlobManager
import Dewfall.General.OrderedIntervals

/-! Free bytes denoted by a free list and the shape of a well-formed one: sections of a page
are in order, apart, not empty and inside the page. One page is replaced at a time, and the
free bytes change only inside that page. Sections that touch need not be merged. -/
namespace Dewfall.BlobFreeSpace
open General General.OrderedIntervals BlobManager

def finish (s : Section) : Nat := s.offset + s.size

abbrev bytes (sections : List Section) : Set Nat := cover Section.offset finish sections

abbrev pageRange (pageNumber : Nat) : Set Nat :=
  Set.Ico (pageNumber * pageSize) ((pageNumber + 1) * pageSize)

abbrev blobBytes (offset size : Nat) : Set Nat := Set.Ico offset (offset + size)

structure PageWell (pageNumber : Nat) (sections : List Section) : Prop where
  ordered : Ordered Section.offset finish sections
  inside : ∀ s ∈ sections, pageNumber * pageSize ≤ s.offset ∧ finish s ≤ (pageNumber + 1) * pageSize
  proper : ∀ s ∈ sections, 0 < s.size

def MapWell (byPage : Sections) : Prop :=
  ∀ pageNumber sections, byPage.find pageNumber = some sections →
    pageNumber < 2 ^ 32 ∧ sections ≠ [] ∧ PageWell pageNumber sections

def mapBytes (byPage : Sections) : Set Nat :=
  {b | ∃ pageNumber sections, byPage.find pageNumber = some sections ∧ b ∈ bytes sections}

def freeBytes (m : FreeBlobManager) : Set Nat :=
  mapBytes m.freeSectionsByPage ∪ Set.Ici m.nextOffset

structure Well (m : FreeBlobManager) : Prop where
  map : MapWell m.freeSectionsByPage
  below : mapBytes m.freeSectionsByPage ⊆ Set.Iio m.nextOffset
  small : m.nextOffset < 2 ^ 64

theorem initialWell : Well initial := by
  have absent : ∀ p, initial.freeSectionsByPage.find p = none := fun p => rfl
  refine ⟨?_, ?_, by decide⟩
  · intro p sections found
    rw [absent p] at found
    contradiction
  · intro b inside
    obtain ⟨p, sections, found, _⟩ := inside
    rw [absent p] at found
    contradiction

theorem stopFinish {pageNumber sections s} (well : PageWell pageNumber sections)
    (small : pageNumber < 2 ^ 32) (mem : s ∈ sections) : s.stop = finish s := by
  have inside := (well.inside s mem).2
  have bound : (pageNumber + 1) * pageSize ≤ 2 ^ 32 * pageSize := Nat.mul_le_mul_right _ small
  exact u64Small (by unfold finish pageSize at *; omega)

theorem bytesInPage {pageNumber sections} (well : PageWell pageNumber sections) :
    bytes sections ⊆ pageRange pageNumber := by
  intro b inside
  obtain ⟨s, mem, low, high⟩ := inside
  have bounds := well.inside s mem
  exact ⟨bounds.1.trans low, high.trans_le bounds.2⟩

theorem pageUnique {p q b : Nat} (first : b ∈ pageRange p) (second : b ∈ pageRange q) : p = q := by
  obtain ⟨lowP, highP⟩ := first
  obtain ⟨lowQ, highQ⟩ := second
  have left : p < q + 1 := Nat.lt_of_mul_lt_mul_right (lowP.trans_lt highQ)
  have right : q < p + 1 := Nat.lt_of_mul_lt_mul_right (lowQ.trans_lt highP)
  omega

theorem emptyWell (pageNumber : Nat) : PageWell pageNumber [] :=
  ⟨List.Pairwise.nil, by simp, by simp⟩

theorem sectionSmall {pageNumber sections s} (well : PageWell pageNumber sections)
    (mem : s ∈ sections) : s.size ≤ pageSize := by
  obtain ⟨low, high⟩ := well.inside s mem
  unfold finish at high
  rw [Nat.succ_mul] at high
  omega

/-! ## Replacing one section of a page -/

structure Within (s : Section) (pieces : List Section) : Prop where
  ordered : Ordered Section.offset finish pieces
  bounds : ∀ z ∈ pieces, s.offset ≤ z.offset ∧ finish z ≤ finish s ∧ 0 < z.size

theorem withinNil (s : Section) : Within s [] := ⟨List.Pairwise.nil, by simp⟩

theorem withinOne {s z : Section} (bounds : s.offset ≤ z.offset ∧ finish z ≤ finish s ∧ 0 < z.size) :
    Within s [z] :=
  ⟨List.pairwise_singleton _ z, fun _ mem => by rwa [List.mem_singleton.mp mem]⟩

theorem withinBytes {s pieces} (within : Within s pieces) :
    bytes pieces ⊆ Set.Ico s.offset (finish s) := by
  intro b inside
  obtain ⟨z, mem, low, high⟩ := inside
  obtain ⟨left, right, _⟩ := within.bounds z mem
  exact ⟨left.trans low, high.trans_le right⟩

theorem replaceWell {pageNumber before s after pieces}
    (well : PageWell pageNumber (before ++ s :: after)) (within : Within s pieces) :
    PageWell pageNumber (before ++ pieces ++ after) := by
  have member : ∀ z ∈ before ++ pieces ++ after, z ∈ pieces ∨ z ∈ before ++ s :: after := by
    intro z mem
    simp only [List.mem_append, List.mem_cons] at mem ⊢
    tauto
  have outer := well.inside s (by simp)
  refine ⟨orderedReplace well.ordered within.ordered
    fun z mem => ⟨(within.bounds z mem).1, (within.bounds z mem).2.1⟩, ?_, ?_⟩
  · intro z mem
    rcases member z mem with new | old
    · obtain ⟨left, right, _⟩ := within.bounds z new
      exact ⟨outer.1.trans left, right.trans outer.2⟩
    · exact well.inside z old
  · intro z mem
    rcases member z mem with new | old
    · exact (within.bounds z new).2.2
    · exact well.proper z old

theorem replaceBytes {pageNumber before s after pieces}
    (well : PageWell pageNumber (before ++ s :: after)) (within : Within s pieces) :
    bytes (before ++ pieces ++ after) =
      bytes (before ++ s :: after) \ (Set.Ico s.offset (finish s) \ bytes pieces) :=
  coverReplace well.ordered (withinBytes within)

/-! ## Replacing the sections of one page -/

def Updated (before after : Sections) (pageNumber : Nat) (sections : List Section) : Prop :=
  ∀ k, after.find k =
    if k = pageNumber then (if sections = [] then none else some sections) else before.find k

theorem putUpdated (layout) {byPage pageNumber old} (present : byPage.find pageNumber = some old)
    (sections : List Section) :
    Updated byPage (putSections layout byPage pageNumber sections) pageNumber sections := by
  intro k
  unfold putSections
  split
  · rw [DenseMap.findErase]
  · rw [DenseMap.findAssign present]

theorem emplaceFind {layout : Layout Nat (List Section)} {byPage : Sections} (pageNumber : Nat) :
    (byPage.emplace layout pageNumber []).find pageNumber =
      some ((byPage.find pageNumber).getD []) := by
  cases found : byPage.find pageNumber with
  | none => rw [DenseMap.findEmplace found, if_pos rfl]; rfl
  | some old => rw [DenseMap.emplace, dif_neg (by rw [found]; simp), found]; rfl

theorem emplacePutUpdated (layout : Layout Nat (List Section)) (byPage : Sections)
    (pageNumber : Nat) (sections : List Section) :
    Updated byPage (putSections layout (byPage.emplace layout pageNumber []) pageNumber sections)
      pageNumber sections := by
  intro k
  rw [putUpdated layout (emplaceFind pageNumber) sections k]
  split
  · rfl
  · rename_i other
    cases found : byPage.find pageNumber with
    | none => rw [DenseMap.findEmplace found, if_neg other]
    | some old => rw [DenseMap.emplace, dif_neg (by rw [found]; simp)]

def pageBytes (byPage : Sections) (pageNumber : Nat) : Set Nat :=
  bytes ((byPage.find pageNumber).getD [])

theorem pageBytesSome {byPage : Sections} {pageNumber sections}
    (found : byPage.find pageNumber = some sections) : pageBytes byPage pageNumber = bytes sections := by
  rw [pageBytes, found, Option.getD_some]

theorem pageWellGetD {byPage : Sections} (well : MapWell byPage) (pageNumber : Nat) :
    PageWell pageNumber ((byPage.find pageNumber).getD []) := by
  cases found : byPage.find pageNumber with
  | none => exact emptyWell pageNumber
  | some sections => exact (well pageNumber sections found).2.2

theorem pageBytesEq {byPage : Sections} (well : MapWell byPage) (pageNumber : Nat) :
    pageBytes byPage pageNumber = mapBytes byPage ∩ pageRange pageNumber := by
  apply Set.Subset.antisymm
  · intro b inside
    have range := bytesInPage (pageWellGetD well pageNumber) inside
    cases found : byPage.find pageNumber with
    | none => simp [pageBytes, found] at inside
    | some sections =>
      rw [pageBytesSome found] at inside
      exact ⟨⟨pageNumber, sections, found, inside⟩, range⟩
  · intro b both
    obtain ⟨⟨p, sections, found, inside⟩, range⟩ := both
    have same := pageUnique (bytesInPage (well p sections found).2.2 inside) range
    subst p
    rwa [pageBytesSome found]

theorem updatedWell {before after pageNumber sections} (well : MapWell before)
    (small : pageNumber < 2 ^ 32) (page : PageWell pageNumber sections)
    (updated : Updated before after pageNumber sections) : MapWell after := by
  intro k found there
  rw [updated k] at there
  split at there
  · rename_i same
    subst same
    split at there
    · contradiction
    · rename_i nonempty
      cases Option.some.inj there
      exact ⟨small, nonempty, page⟩
  · exact well k found there

theorem updatedBytes {before after pageNumber sections} (well : MapWell before)
    (updated : Updated before after pageNumber sections) :
    mapBytes after = bytes sections ∪ (mapBytes before \ pageRange pageNumber) := by
  apply Set.Subset.antisymm
  · intro b inside
    obtain ⟨k, found, there, inside⟩ := inside
    rw [updated k] at there
    split at there
    · split at there
      · contradiction
      · cases Option.some.inj there
        exact Or.inl inside
    · rename_i other
      have range := bytesInPage (well k found there).2.2 inside
      exact Or.inr ⟨⟨k, found, there, inside⟩, fun here => other (pageUnique range here)⟩
  · intro b either
    rcases either with inside | ⟨⟨k, found, there, inside⟩, outside⟩
    · have nonempty : sections ≠ [] := by
        intro h
        simp [h] at inside
      exact ⟨pageNumber, sections, by rw [updated, if_pos rfl, if_neg nonempty], inside⟩
    · have other : k ≠ pageNumber := by
        intro h
        subst h
        exact outside (bytesInPage (well k found there).2.2 inside)
      exact ⟨k, found, by rw [updated, if_neg other, there], inside⟩

theorem updatedShrink {before after pageNumber sections} {R : Set Nat} (well : MapWell before)
    (updated : Updated before after pageNumber sections) (range : R ⊆ pageRange pageNumber)
    (left : bytes sections = pageBytes before pageNumber \ R) :
    mapBytes after = mapBytes before \ R := by
  rw [updatedBytes well updated, left, pageBytesEq well]
  ext b
  have inPage : b ∈ R → b ∈ pageRange pageNumber := fun h => range h
  simp only [Set.mem_union, Set.mem_sdiff, Set.mem_inter_iff]
  tauto

theorem updatedGrow {before after pageNumber sections} {R : Set Nat} (well : MapWell before)
    (updated : Updated before after pageNumber sections)
    (gained : bytes sections = pageBytes before pageNumber ∪ R) :
    mapBytes after = mapBytes before ∪ R := by
  rw [updatedBytes well updated, gained, pageBytesEq well]
  ext b
  simp only [Set.mem_union, Set.mem_sdiff, Set.mem_inter_iff]
  tauto

theorem dropBackWell (layout : Layout Nat (List Section)) {byPage : Sections} {pageNumber sections back} (well : MapWell byPage)
    (found : byPage.find pageNumber = some sections) (last : sections.getLast? = some back) :
    MapWell (putSections layout byPage pageNumber sections.dropLast) ∧
      mapBytes (putSections layout byPage pageNumber sections.dropLast) =
        mapBytes byPage \ Set.Ico back.offset (finish back) ∧
      Set.Ico back.offset (finish back) ⊆ mapBytes byPage := by
  obtain ⟨small, _, page⟩ := well pageNumber sections found
  obtain ⟨init, shape⟩ := List.getLast?_eq_some_iff.mp last
  subst shape
  have kept := replaceWell page (withinNil back)
  have removed := replaceBytes page (withinNil back)
  have mem : back ∈ init ++ [back] := by simp
  simp only [List.append_nil, coverNil, Set.sdiff_empty] at kept removed
  rw [List.dropLast_concat]
  have updated := putUpdated layout found init
  have range : Set.Ico back.offset (finish back) ⊆ pageRange pageNumber :=
    (coverMember mem).trans (bytesInPage page)
  refine ⟨updatedWell well small kept updated, ?_, ?_⟩
  · exact updatedShrink well updated range (by rw [removed, pageBytesSome found])
  · exact fun b inside => ⟨pageNumber, _, found, coverMember mem inside⟩

/-! ## Separated sections and the room their list takes -/

def Separated (sections : List Section) : Prop := sections.Pairwise fun a b => finish a < b.offset

def Merged (byPage : Sections) : Prop :=
  ∀ pageNumber sections, byPage.find pageNumber = some sections → Separated sections

-- Bytes of the serialized pages and sections.
def listed (byPage : Sections) : Nat := byPage.total fun sections => 8 + 16 * sections.length

structure Tidy (before after : Sections) (grown : Nat) : Prop where
  merged : Merged before → Merged after
  listed : listed after ≤ listed before + grown

theorem tidyRefl (byPage : Sections) (grown) : Tidy byPage byPage grown :=
  ⟨fun merged => merged, Nat.le_add_right _ _⟩

theorem tidyTrans {a b c : Sections} {first later grown} (left : Tidy a b first) (right : Tidy b c later)
    (bound : first + later ≤ grown) : Tidy a c grown := by
  refine ⟨fun merged => right.merged (left.merged merged), ?_⟩
  have start := left.listed
  have finish := right.listed
  omega

theorem separatedReplace {before s after pieces} (kept : Separated (before ++ s :: after))
    (small : Separated pieces) (within : Within s pieces) : Separated (before ++ pieces ++ after) := by
  refine pairwiseReplace kept small (fun z mem a clear => ?_) fun z mem b clear => ?_
  · exact Nat.lt_of_lt_of_le clear (within.bounds z mem).1
  · exact Nat.lt_of_le_of_lt (within.bounds z mem).2.1 clear

theorem updatedMerged {before after pageNumber sections} (merged : Merged before)
    (here : Separated sections) (updated : Updated before after pageNumber sections) : Merged after := by
  intro k found there
  rw [updated k] at there
  split at there
  · split at there
    · contradiction
    · cases Option.some.inj there
      exact here
  · exact merged k found there

theorem putListed (layout : Layout Nat (List Section)) {byPage : Sections} {pageNumber old sections} {n : Nat}
    (present : byPage.find pageNumber = some old) (count : sections.length ≤ old.length + n) :
    listed (putSections layout byPage pageNumber sections) ≤ listed byPage + 16 * n := by
  unfold listed putSections
  split
  · have less := @DenseMap.totalErase _ _ _ layout _ _ _ present fun sections => 8 + 16 * sections.length
    omega
  · have same := DenseMap.totalAssign present sections fun sections => 8 + 16 * sections.length
    omega

theorem tidyPut (layout : Layout Nat (List Section)) {byPage : Sections} {pageNumber old sections} (n)
    (present : byPage.find pageNumber = some old) (kept : Separated old → Separated sections)
    (count : sections.length ≤ old.length + n) :
    Tidy byPage (putSections layout byPage pageNumber sections) (16 * n) := by
  refine ⟨fun merged => ?_, putListed layout present count⟩
  exact updatedMerged merged (kept (merged _ _ present)) (putUpdated layout present sections)

theorem tidyEmplacePut (layout : Layout Nat (List Section)) {byPage : Sections} {pageNumber sections}
    (kept : Separated ((byPage.find pageNumber).getD []) → Separated sections)
    (count : sections.length ≤ ((byPage.find pageNumber).getD []).length + 1) :
    Tidy byPage (putSections layout (byPage.emplace layout pageNumber []) pageNumber sections) 24 := by
  cases found : byPage.find pageNumber with
  | none =>
    rw [found] at kept count
    have opened : Tidy byPage (byPage.emplace layout pageNumber []) 8 := by
      refine ⟨fun merged k there here => ?_, ?_⟩
      · rw [DenseMap.findEmplace found] at here
        split at here
        · cases here
          exact List.Pairwise.nil
        · exact merged k there here
      · unfold listed
        rw [DenseMap.totalEmplace found]
        exact Nat.le_of_eq (Nat.add_comm _ _)
    have present : (byPage.emplace layout pageNumber []).find pageNumber = some [] := by
      rw [DenseMap.findEmplace found, if_pos rfl]
    exact tidyTrans opened (tidyPut layout 1 present kept count) (by omega)
  | some old =>
    rw [found] at kept count
    have same : byPage.emplace layout pageNumber [] = byPage := by
      rw [DenseMap.emplace, dif_neg (by rw [found]; simp)]
    rw [same]
    exact tidyTrans (tidyPut layout 1 found kept count) (tidyRefl _ 0) (by omega)

theorem dropBackTidy (layout : Layout Nat (List Section)) {byPage : Sections} {pageNumber sections}
    (found : byPage.find pageNumber = some sections) :
    Tidy byPage (putSections layout byPage pageNumber sections.dropLast) 0 := by
  refine tidyPut layout 0 found (fun kept => ?_) ?_
  · exact List.Pairwise.sublist (List.dropLast_sublist _) kept
  · exact (List.dropLast_sublist _).length_le

end Dewfall.BlobFreeSpace
