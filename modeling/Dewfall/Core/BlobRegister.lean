import Dewfall.Core.BlobFreeSpace

/-! What `register_blob` hands out. A request is sound when the section that meets it carries
no spillover, or opens its page and the carried bytes are whole free sections that end where
the page begins; otherwise the scan counts bytes that are not in front of the section. -/
namespace Dewfall.BlobRegister
open General General.OrderedIntervals BlobManager BlobFreeSpace

variable (layout : Layout Nat (List Section))

theorem firstFitSplit {size spillover sections before chosen after}
    (found : firstFit size spillover sections = some (before, chosen, after)) :
    sections = before ++ chosen :: after ∧ size ≤ u32 (chosen.size + spillover) := by
  induction sections generalizing before with
  | nil => simp [firstFit] at found
  | cons s rest ih =>
    simp only [firstFit] at found
    split at found
    · rename_i fits
      cases Option.some.inj found
      exact ⟨rfl, fits⟩
    · obtain ⟨⟨first, c, a⟩, later, same⟩ := Option.map_eq_some_iff.mp found
      cases same
      obtain ⟨shape, fits⟩ := ih later
      exact ⟨by rw [shape]; rfl, fits⟩

theorem firstFitNone {size spillover sections} (missed : firstFit size spillover sections = none) :
    ∀ s ∈ sections, u32 (s.size + spillover) < size := by
  induction sections with
  | nil => simp
  | cons s rest ih =>
    simp only [firstFit] at missed
    split at missed
    · contradiction
    · rename_i short
      intro t mem
      rcases List.mem_cons.mp mem with rfl | later
      · omega
      · exact ih (Option.map_eq_none_iff.mp missed) t later

/-- What the scan knows about the place it stops at. -/
structure FitWell (size : Nat) (entries : List (Nat × List Section)) (fit : Fit) : Prop where
  entry : (fit.pageNumber, fit.before ++ fit.chosen :: fit.after) ∈ entries
  fits : size ≤ u32 (fit.chosen.size + fit.spillover)
  short : fit.spillover = 0 ∨ fit.spillover < size
  opens : fit.spillover ≠ 0 → fit.before = [] → fit.chosen.offset = fit.pageNumber * pageSize

theorem carriedOpens {spillover spilloverPage pageNumber front rest}
    (carries : carried spillover spilloverPage pageNumber (front :: rest) ≠ 0) :
    front.offset = pageNumber * pageSize := by
  unfold carried at carries
  split at carries
  · contradiction
  · rename_i neither
    simp only [not_or, List.head?_cons, Option.any_some, decide_eq_true_eq, not_not] at neither
    exact neither.2

theorem carriedShort {size spillover spilloverPage pageNumber sections}
    (short : spillover = 0 ∨ spillover < size) :
    carried spillover spilloverPage pageNumber sections = 0 ∨
      carried spillover spilloverPage pageNumber sections < size := by
  unfold carried
  split
  · exact Or.inl rfl
  · exact short

theorem scanFit {size spillover spilloverPage entries fit}
    (short : spillover = 0 ∨ spillover < size)
    (found : scan size spillover spilloverPage entries = some fit) : FitWell size entries fit := by
  induction entries generalizing spillover spilloverPage with
  | nil => simp [scan] at found
  | cons e rest ih =>
    obtain ⟨pageNumber, sections⟩ := e
    simp only [scan] at found
    split at found
    · rename_i before chosen after here
      cases Option.some.inj found
      obtain ⟨shape, fits⟩ := firstFitSplit here
      subst shape
      refine ⟨List.mem_cons_self, fits, carriedShort short, ?_⟩
      intro carries first
      cases first
      exact carriedOpens carries
    · rename_i missed
      have later : ∀ {s p}, (s = 0 ∨ s < size) → scan size s p rest = some fit →
          FitWell size ((pageNumber, sections) :: rest) fit := by
        intro s p short found
        have well := ih short found
        exact ⟨List.mem_cons_of_mem _ well.entry, well.fits, well.short, well.opens⟩
      split at found
      · rename_i back ends
        have mem : back ∈ sections := List.mem_of_getLast? (Option.filter_eq_some_iff.mp ends).1
        have small := firstFitNone missed back mem
        exact later (Or.inr (by rwa [Nat.add_comm] at small)) found
      · exact later (Or.inl rfl) found

/-! ## The chosen section -/

theorem cutWell (size) {fit : Fit} (small : fit.pageNumber < 2 ^ 32)
    (well : PageWell fit.pageNumber (fit.before ++ fit.chosen :: fit.after))
    (room : sub32 size fit.spillover ≤ fit.chosen.size) :
    PageWell fit.pageNumber (cut fit size) ∧ bytes (cut fit size) =
      bytes (fit.before ++ fit.chosen :: fit.after) \
        blobBytes fit.chosen.offset (sub32 size fit.spillover) ∧
      (Separated (fit.before ++ fit.chosen :: fit.after) → Separated (cut fit size)) ∧
      (cut fit size).length ≤ (fit.before ++ fit.chosen :: fit.after).length := by
  have mem : fit.chosen ∈ fit.before ++ fit.chosen :: fit.after := by simp
  have bounds := (well.inside fit.chosen mem).2
  have sizeSmall := sectionSmall well mem
  have pageSmall : (fit.pageNumber + 1) * pageSize ≤ 2 ^ 32 * pageSize :=
    Nat.mul_le_mul_right _ small
  unfold cut
  generalize sub32 size fit.spillover = taken at *
  dsimp only
  split
  · rename_i whole
    have removed := replaceBytes well (withinNil fit.chosen)
    have kept := replaceWell well (withinNil fit.chosen)
    simp only [List.append_nil, coverNil, Set.sdiff_empty] at removed kept
    refine ⟨kept, by rw [removed, ← whole]; rfl, fun apart => ?_, by simp⟩
    have left := separatedReplace apart List.Pairwise.nil (withinNil fit.chosen)
    rwa [List.append_nil] at left
  · rename_i partly
    have start : u64 (fit.chosen.offset + taken) = fit.chosen.offset + taken :=
      u64Small (by unfold finish pageSize at *; omega)
    have rest : sub32 fit.chosen.size taken = fit.chosen.size - taken :=
      sub32Small (by unfold pageSize at *; omega) room
    rw [start, rest]
    have within : Within fit.chosen [⟨fit.chosen.offset + taken, fit.chosen.size - taken⟩] :=
      withinOne ⟨by simp, by simp only [finish]; omega, by simp only; omega⟩
    have removed := replaceBytes well within
    have kept := replaceWell well within
    simp only [List.append_assoc, List.singleton_append] at removed kept
    refine ⟨kept, removed.trans (congrArg _ ?_), fun apart => ?_, by simp⟩
    · ext b
      simp only [coverCons, coverNil, Set.union_empty, finish, Set.mem_sdiff, Set.mem_Ico]
      omega
    · have left := separatedReplace apart (List.pairwise_singleton _ _) within
      rwa [List.append_assoc, List.singleton_append] at left

/-! ## The tail of the pages before -/

-- `spillover` bytes in front of the page are whole trailing sections: free pages and, farthest
-- back, one section that ends its page.
def Backed (byPage : Sections) : Nat → Nat → Prop
  | 0, spillover => spillover = 0
  | previous + 1, spillover => spillover = 0 ∨
      match (byPage.find previous).bind List.getLast? with
      | none => False
      | some back => back.stop = (previous + 1) * pageSize ∧ back.size ≤ spillover ∧
          (back.size = spillover ∨
            back.offset = previous * pageSize ∧ Backed byPage previous (spillover - back.size))

def decideBacked (byPage : Sections) : (pageNumber spillover : Nat) →
    Decidable (Backed byPage pageNumber spillover)
  | 0, spillover => inferInstanceAs (Decidable (spillover = 0))
  | previous + 1, spillover => by
    unfold Backed
    have later := fun rest => decideBacked byPage previous rest
    cases (byPage.find previous).bind List.getLast? <;> infer_instance

instance (byPage pageNumber spillover) : Decidable (Backed byPage pageNumber spillover) :=
  decideBacked byPage pageNumber spillover

theorem backedCongr {before after : Sections} {pageNumber spillover}
    (same : ∀ p < pageNumber, before.find p = after.find p)
    (backed : Backed before pageNumber spillover) : Backed after pageNumber spillover := by
  induction pageNumber generalizing spillover with
  | zero => exact backed
  | succ previous ih =>
    unfold Backed at backed ⊢
    rw [same previous (Nat.lt_succ_self previous)] at backed
    rcases backed with none | some
    · exact Or.inl none
    · right
      split at some
      · exact some
      · obtain ⟨ends, within, rest⟩ := some
        refine ⟨ends, within, ?_⟩
        rcases rest with all | ⟨full, earlier⟩
        · exact Or.inl all
        · exact Or.inr ⟨full, ih (fun p small => same p (by omega)) earlier⟩

theorem consumeZero (pageNumber : Nat) (byPage : Sections) :
    consumeTail layout pageNumber 0 byPage = byPage := by
  cases pageNumber with
  | zero => rfl
  | succ previous => exact if_pos rfl

/-- The bytes of the last `spillover` positions before a page. -/
abbrev tailBytes (pageNumber spillover : Nat) : Set Nat :=
  Set.Ico (pageNumber * pageSize - spillover) (pageNumber * pageSize)

theorem consumeWell {byPage : Sections} {pageNumber spillover} (well : MapWell byPage)
    (backed : Backed byPage pageNumber spillover) :
    spillover ≤ pageNumber * pageSize ∧ tailBytes pageNumber spillover ⊆ mapBytes byPage ∧
      MapWell (consumeTail layout pageNumber spillover byPage) ∧
      mapBytes (consumeTail layout pageNumber spillover byPage) =
        mapBytes byPage \ tailBytes pageNumber spillover := by
  induction pageNumber generalizing spillover byPage with
  | zero =>
    have nothing : spillover = 0 := backed
    subst nothing
    simp [consumeTail, well]
  | succ previous ih =>
    by_cases nothing : spillover = 0
    · subst nothing
      simp [consumeZero, well]
    have rest := (show Backed byPage (previous + 1) spillover from backed).resolve_left nothing
    split at rest
    · contradiction
    rename_i back there
    obtain ⟨sections, found, last⟩ := Option.bind_eq_some_iff.mp there
    obtain ⟨small, _, page⟩ := well previous sections found
    have mem : back ∈ sections := List.mem_of_getLast? last
    have inside := page.inside back mem
    obtain ⟨ends, within, further⟩ := rest
    rw [stopFinish page small mem] at ends
    obtain ⟨dropped, bytesLeft, had⟩ := dropBackWell layout well found last
    have one : consumeTail layout (previous + 1) spillover byPage =
        consumeTail layout previous (spillover - back.size)
          (putSections layout byPage previous sections.dropLast) := by
      simp only [consumeTail, if_neg nothing, found, Option.bind_some, last, Option.map_some,
        if_neg (not_lt.mpr within)]
    rw [one]
    have size : finish back = back.offset + back.size := rfl
    rcases further with all | ⟨full, earlier⟩
    · have range : tailBytes (previous + 1) spillover = Set.Ico back.offset (finish back) := by
        unfold tailBytes
        rw [← ends, size, ← all, Nat.add_sub_cancel]
      rw [all, Nat.sub_self, consumeZero, range]
      exact ⟨by omega, had, dropped, bytesLeft⟩
    · have unchanged : ∀ p < previous, byPage.find p =
          (putSections layout byPage previous sections.dropLast).find p := by
        intro p lower
        rw [putUpdated layout found _ p, if_neg (by omega)]
      obtain ⟨fits, free, wellAfter, bytesAfter⟩ := ih dropped (backedCongr unchanged earlier)
      have range : tailBytes (previous + 1) spillover =
          Set.Ico back.offset (finish back) ∪ tailBytes previous (spillover - back.size) := by
        ext b
        simp only [Set.mem_Ico, Set.mem_union]
        omega
      rw [range]
      refine ⟨by omega, ?_, wellAfter, ?_⟩
      · rw [bytesLeft] at free
        exact Set.union_subset had (free.trans Set.sdiff_subset)
      · rw [bytesAfter, bytesLeft, Set.sdiff_sdiff]

theorem consumeTidy (pageNumber remaining : Nat) (byPage : Sections) :
    Tidy byPage (consumeTail layout pageNumber remaining byPage) 0 := by
  induction pageNumber generalizing remaining byPage with
  | zero => exact tidyRefl byPage 0
  | succ previous ih =>
    unfold consumeTail
    split
    · exact tidyRefl byPage 0
    split
    · exact tidyRefl byPage 0
    rename_i sections back there
    split
    · exact tidyRefl byPage 0
    obtain ⟨there, found, last⟩ := Option.bind_eq_some_iff.mp there
    obtain ⟨_, _, same⟩ := Option.map_eq_some_iff.mp last
    cases same
    exact tidyTrans (dropBackTidy layout found) (ih _ _) (le_refl 0)

/-! ## One request -/

theorem slotKept {byPage : Sections} {pageNumber old} (found : byPage.find pageNumber = some old) (sections : List Section) :
    slotPage byPage (byPage.assign pageNumber sections) pageNumber = pageNumber := by
  have inside : byPage.entries.findIdx (fun e => e.1 = pageNumber) < byPage.entries.length :=
    List.findIdx_lt_length_of_exists ⟨_, DenseMap.findMem.mp found, decide_eq_true rfl⟩
  have own : (byPage.entries[byPage.entries.findIdx fun e => e.1 = pageNumber]).1 = pageNumber := by
    have meets := List.findIdx_getElem (w := inside)
    exact of_decide_eq_true meets
  unfold slotPage
  rw [DenseMap.assign, List.getElem?_map, List.getElem?_eq_getElem inside, Option.map_some, if_pos own]

theorem slotLast {byPage : Sections} {pageNumber} (last : byPage.entries.getLast?.map Prod.fst = some pageNumber) :
    slotPage byPage (byPage.erase layout pageNumber) pageNumber = pageNumber := by
  obtain ⟨e, there, same⟩ := Option.map_eq_some_iff.mp last
  have whole := List.dropLast_append_getLast? e there
  have fresh : ∀ x ∈ byPage.entries.dropLast, x.1 ≠ pageNumber := by
    intro x mem equal
    have distinct := byPage.distinct
    rw [← whole, List.map_append] at distinct
    exact (List.nodup_append'.mp distinct).2.2 (List.mem_map_of_mem mem) (by simp [equal, same])
  have index : byPage.entries.findIdx (fun e => e.1 = pageNumber) = byPage.entries.dropLast.length := by
    have beyond : byPage.entries.dropLast.findIdx (fun e => e.1 = pageNumber) = byPage.entries.dropLast.length :=
      List.findIdx_eq_length.mpr fun x mem => decide_eq_false (fresh x mem)
    rw [← whole, List.findIdx_append, whole, beyond, if_neg (Nat.lt_irrefl _), List.findIdx_cons, same]
    simp
  have left : (byPage.erase layout pageNumber).entries.length = byPage.entries.dropLast.length := by
    refine (layout.erasePerm byPage.entries pageNumber byPage.distinct).length_eq.trans ?_
    rw [← whole, List.filter_append, List.filter_eq_self.mpr fun x mem => decide_eq_true (fresh x mem), whole]
    simp [same]
  unfold slotPage
  rw [index, List.getElem?_eq_none (Nat.le_of_eq left)]

theorem slotSame {byPage : Sections} {pageNumber old} (found : byPage.find pageNumber = some old) (sections : List Section)
    (last : sections = [] → byPage.entries.getLast?.map Prod.fst = some pageNumber) :
    slotPage byPage (putSections layout byPage pageNumber sections) pageNumber = pageNumber := by
  unfold putSections
  split
  · rename_i none_
    exact slotLast layout (last none_)
  · exact slotKept found sections

-- The branch that goes wrong is not taken: the spillover belongs to the section that meets the
-- request and is free to its last byte, and the page that is walked back from is still the one
-- that was chosen. Behind the last section the offset must not wrap.
def RegisterSound (m : FreeBlobManager) (size : Nat) : Prop :=
  match scan size 0 0 m.freeSectionsByPage.entries with
  | none => m.nextOffset + size < 2 ^ 64
  | some fit => fit.spillover = 0 ∨
      fit.before = [] ∧ Backed m.freeSectionsByPage fit.pageNumber fit.spillover ∧
        (cut fit size = [] → m.freeSectionsByPage.entries.getLast?.map Prod.fst = some fit.pageNumber)

instance (m size) : Decidable (RegisterSound m size) := by
  unfold RegisterSound
  split <;> infer_instance

theorem backedZero (byPage : Sections) (pageNumber : Nat) : Backed byPage pageNumber 0 := by
  cases pageNumber with
  | zero => exact rfl
  | succ previous => exact Or.inl rfl

theorem registerTail {m size} (well : Well m) (fits : m.nextOffset + size < 2 ^ 64) :
    Well ⟨u64 (m.nextOffset + size), m.freeSectionsByPage⟩ ∧
      blobBytes m.nextOffset size ⊆ freeBytes m ∧
      freeBytes ⟨u64 (m.nextOffset + size), m.freeSectionsByPage⟩ =
        freeBytes m \ blobBytes m.nextOffset size := by
  rw [u64Small fits]
  refine ⟨⟨well.map, ?_, fits⟩, fun b inside => Or.inr inside.1, ?_⟩
  · exact well.below.trans fun b (low : b < m.nextOffset) => low.trans_le (Nat.le_add_right _ _)
  · ext b
    have low : b ∈ mapBytes m.freeSectionsByPage → b < m.nextOffset := fun inside => well.below inside
    simp only [freeBytes, Set.mem_union, Set.mem_sdiff, Set.mem_Ico, Set.mem_Ici]
    by_cases inside : b ∈ mapBytes m.freeSectionsByPage
    · have := low inside
      simp only [inside, true_or, true_and, true_iff]
      omega
    · simp only [inside, false_or]
      omega

theorem registerFit {m size} {fit : Fit} (well : Well m) (width : size < 2 ^ 32)
    (stop : FitWell size m.freeSectionsByPage.entries fit)
    (sound : fit.spillover = 0 ∨
      fit.before = [] ∧ Backed m.freeSectionsByPage fit.pageNumber fit.spillover ∧
        (cut fit size = [] → m.freeSectionsByPage.entries.getLast?.map Prod.fst = some fit.pageNumber)) :
    let left := putSections layout m.freeSectionsByPage fit.pageNumber (cut fit size)
    let byPage := consumeTail layout (slotPage m.freeSectionsByPage left fit.pageNumber) fit.spillover left
    MapWell byPage ∧
      blobBytes (sub64 fit.chosen.offset fit.spillover) size ⊆ mapBytes m.freeSectionsByPage ∧
      mapBytes byPage =
        mapBytes m.freeSectionsByPage \ blobBytes (sub64 fit.chosen.offset fit.spillover) size ∧
      Tidy m.freeSectionsByPage byPage 0 := by
  have found := DenseMap.findMem.mpr stop.entry
  have slot : consumeTail layout (slotPage m.freeSectionsByPage
      (putSections layout m.freeSectionsByPage fit.pageNumber (cut fit size)) fit.pageNumber) fit.spillover
      (putSections layout m.freeSectionsByPage fit.pageNumber (cut fit size)) =
      consumeTail layout fit.pageNumber fit.spillover
        (putSections layout m.freeSectionsByPage fit.pageNumber (cut fit size)) := by
    rcases sound with none | ⟨_, _, last⟩
    · rw [none, consumeZero, consumeZero]
    · rw [slotSame layout found (cut fit size) last]
  dsimp only
  rw [slot]
  obtain ⟨small, _, page⟩ := well.map _ _ found
  have taken : sub32 size fit.spillover = size - fit.spillover := by
    rcases stop.short with h | h <;> exact sub32Small width (by omega)
  have room : size - fit.spillover ≤ fit.chosen.size := by
    have sum := stop.fits.trans (u32Le _)
    omega
  obtain ⟨cutPage, cutBytes, cutApart, cutCount⟩ := cutWell size small page (by rw [taken]; exact room)
  rw [taken] at cutBytes
  have updated := putUpdated layout found (cut fit size)
  have mem : fit.chosen ∈ fit.before ++ fit.chosen :: fit.after := by simp
  have own : blobBytes fit.chosen.offset (size - fit.spillover) ⊆
      bytes (fit.before ++ fit.chosen :: fit.after) := by
    intro b inside
    exact coverMember mem ⟨inside.1, by have := inside.2; unfold finish; omega⟩
  have wellCut := updatedWell well.map small cutPage updated
  have bytesCut := updatedShrink well.map updated (own.trans (bytesInPage page))
    (by rw [cutBytes, pageBytesSome found])
  have backed : Backed m.freeSectionsByPage fit.pageNumber fit.spillover := by
    rcases sound with none | ⟨_, backed, _⟩
    · rw [none]
      exact backedZero _ _
    · exact backed
  have kept := backedCongr (fun p lower => by rw [updated p, if_neg (by omega)]) backed
  obtain ⟨low, tail, wellLeft, bytesLeft⟩ := consumeWell layout wellCut kept
  have opens : fit.spillover ≠ 0 → fit.chosen.offset = fit.pageNumber * pageSize := by
    intro carries
    rcases sound with none | ⟨first, _⟩
    · exact absurd none carries
    · exact stop.opens carries first
  have finishSmall : fit.chosen.offset < 2 ^ 64 := by
    have high := (page.inside _ mem).2
    have bound : (fit.pageNumber + 1) * pageSize ≤ 2 ^ 32 * pageSize := Nat.mul_le_mul_right _ small
    unfold finish pageSize at *
    omega
  have start : sub64 fit.chosen.offset fit.spillover = fit.chosen.offset - fit.spillover :=
    sub64Small finishSmall (by omega)
  have whole : blobBytes (fit.chosen.offset - fit.spillover) size =
      blobBytes fit.chosen.offset (size - fit.spillover) ∪
        tailBytes fit.pageNumber fit.spillover := by
    have short := stop.short
    ext b
    simp only [Set.mem_Ico, Set.mem_union]
    omega
  rw [start, whole]
  refine ⟨wellLeft, Set.union_subset ?_ ?_, ?_, ?_⟩
  · exact fun b inside => ⟨_, _, found, own inside⟩
  · rw [bytesCut] at tail
    exact tail.trans Set.sdiff_subset
  · rw [bytesLeft, bytesCut, Set.sdiff_sdiff]
  · exact tidyTrans (tidyPut layout 0 found cutApart cutCount) (consumeTidy layout _ _ _) (le_refl 0)

theorem registerSpec {m size} (well : Well m) (width : size < 2 ^ 32)
    (sound : RegisterSound m size) :
    Well (registerBlob layout m size).1 ∧
      blobBytes (registerBlob layout m size).2 size ⊆ freeBytes m ∧
      freeBytes (registerBlob layout m size).1 =
        freeBytes m \ blobBytes (registerBlob layout m size).2 size ∧
      Tidy m.freeSectionsByPage (registerBlob layout m size).1.freeSectionsByPage 0 := by
  unfold RegisterSound at sound
  unfold registerBlob
  cases scanned : scan size 0 0 m.freeSectionsByPage.entries with
  | none =>
    simp only [scanned] at sound
    obtain ⟨kept, room, left⟩ := registerTail well sound
    exact ⟨kept, room, left, tidyRefl _ 0⟩
  | some fit =>
    simp only [scanned] at sound
    have stop := scanFit (Or.inl rfl) scanned
    obtain ⟨map, room, left, tidy⟩ := registerFit layout well width stop sound
    refine ⟨⟨map, ?_, well.small⟩, room.trans Set.subset_union_left, ?_, tidy⟩
    · rw [left]
      exact Set.sdiff_subset.trans well.below
    · have below : Disjoint (Set.Ici m.nextOffset) (blobBytes (sub64 fit.chosen.offset fit.spillover) size) :=
        Set.disjoint_left.mpr fun b high taken => by
          have low : b < m.nextOffset := well.below (room taken)
          exact absurd low (not_lt.mpr high)
      unfold freeBytes
      dsimp only
      rw [left, Set.union_sdiff_distrib, below.sdiff_eq_left]

end Dewfall.BlobRegister
