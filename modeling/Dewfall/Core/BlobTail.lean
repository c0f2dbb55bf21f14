import Dewfall.Core.BlobRuns
import Mathlib.Data.List.Infix

/-! Whether `unregister_blob` gives the whole free tail back to the file's end. It starts at the
last entry of the page map, so the order the entries stand in decides how far it comes. Blobs
are registered and unregistered only; ranges are not claimed here. -/
namespace Dewfall.BlobTail
open General General.Transition General.OrderedIntervals
open BlobManager BlobFreeSpace BlobRegister BlobRelease BlobClaim BlobRuns

variable {layout : Layout Nat (List Section)}

/-! ## The entries after a release -/

theorem absorbNonempty (s : Section) (after : List Section) : absorbNext s after ≠ [] := by
  unfold absorbNext
  split
  · simp
  · split <;> simp

theorem insertFreeNonempty {sections piece result} (found : insertFree sections piece = some result) :
    result ≠ [] := by
  unfold insertFree at found
  dsimp only at found
  split at found
  · contradiction
  split at found
  · contradiction
  split at found
  · cases Option.some.inj found
    exact absorbNonempty _ _
  · split at found
    all_goals
      cases Option.some.inj found
      exact List.append_ne_nil_of_right_ne_nil _ (absorbNonempty _ _)

theorem putKeys {byPage : Sections} {pageNumber sections} (nonempty : sections ≠ []) :
    (putSections layout byPage pageNumber sections).keys = byPage.keys := by
  unfold putSections
  rw [if_neg nonempty, DenseMap.assignKeys]

def pagesFrom (pageNumber endPage : Nat) : List Nat :=
  List.range' pageNumber (endPage + 1 - pageNumber)

/-- The keys once the pages have been visited: those without an entry have been given one. -/
def keysWith (byPage : Sections) (pages : List Nat) : List Nat :=
  byPage.keys ++ pages.filter fun p => p ∉ byPage.keys

theorem unregisterKeys (stacked : DenseMap.Stacked layout) {offset size} (endPage turns pageNumber)
    {byPage after : Sections} (counter : endPage + 1 < 2 ^ 32)
    (walked : unregisterPages layout offset size endPage turns pageNumber byPage = (after, true)) :
    after.keys = keysWith byPage (pagesFrom pageNumber endPage) := by
  induction turns generalizing pageNumber byPage with
  | zero => cases walked
  | succ turns ih =>
    unfold unregisterPages at walked
    split at walked
    · rename_i past
      cases walked
      rw [keysWith, pagesFrom, Nat.sub_eq_zero_of_le past, List.range'_zero, List.filter_nil, List.append_nil]
    rename_i within
    dsimp only at walked
    split at walked
    · cases walked
    rename_i sections found
    rw [u32Small (by omega)] at walked
    have later := ih (pageNumber + 1) walked
    have here : pagesFrom pageNumber endPage = pageNumber :: pagesFrom (pageNumber + 1) endPage := by
      unfold pagesFrom
      rw [show endPage + 1 - pageNumber = endPage + 1 - (pageNumber + 1) + 1 by omega, List.range'_succ]
    have present := DenseMap.emplaceKeys stacked byPage pageNumber []
    have others : (pagesFrom (pageNumber + 1) endPage).filter
          (fun p => p ∉ byPage.keys ++ [pageNumber].filter fun k => k ∉ byPage.keys) =
        (pagesFrom (pageNumber + 1) endPage).filter fun p => p ∉ byPage.keys := by
      refine List.filter_congr fun p mem => ?_
      have above : p ≠ pageNumber := by
        obtain ⟨i, _, rfl⟩ := List.mem_range'.mp mem
        omega
      simp [above]
    rw [later, keysWith, keysWith, putKeys (insertFreeNonempty found), present, others, here, List.append_assoc,
      ← List.filter_append, List.singleton_append]

/-! ## The last free section -/

def NoFreeTail (m : FreeBlobManager) : Prop := ∀ b ∈ mapBytes m.freeSectionsByPage, b + 1 ≠ m.nextOffset

theorem lastSection {pageNumber sections} {start stop : Nat} (page : PageWell pageNumber sections)
    (separated : Separated sections) (order : start < stop) (run : Set.Ico start stop ⊆ bytes sections)
    (below : bytes sections ⊆ Set.Iio stop) :
    ∃ init s, sections = init ++ [s] ∧ s.offset ≤ start ∧ finish s = stop := by
  obtain ⟨s, mem, low, high⟩ := separatedHolds separated order run
  have top : finish s = stop := by
    have size := page.proper s mem
    have last : finish s - 1 < stop := below ⟨s, mem, by unfold finish; omega, by unfold finish; omega⟩
    omega
  obtain ⟨init, after, rfl⟩ := List.append_of_mem mem
  cases after with
  | nil => exact ⟨init, s, rfl, low, top⟩
  | cons next rest =>
    have above := (orderedAround page.ordered).2 next List.mem_cons_self
    have size := page.proper next (by simp)
    have inside : next.offset < stop := below ⟨next, by simp, le_refl _, by unfold finish; omega⟩
    omega

theorem trimStays {m : FreeBlobManager} (turns) (well : Well m) (none_ : NoFreeTail m) :
    trimTail layout turns m = m := by
  cases turns with
  | zero => rfl
  | succ turns =>
    unfold trimTail
    split
    · rfl
    rename_i pageNumber sections back there
    obtain ⟨⟨p, found⟩, last, lastBack⟩ := Option.bind_eq_some_iff.mp there
    obtain ⟨b, isBack, same⟩ := Option.map_eq_some_iff.mp lastBack
    cases same
    refine if_pos fun ends => ?_
    have present := DenseMap.findMem.mpr (List.mem_of_getLast? last)
    have mem := List.mem_of_getLast? isBack
    obtain ⟨small, _, page⟩ := well.map _ _ present
    rw [stopFinish page small mem] at ends
    have size := page.proper back mem
    refine none_ (finish back - 1) ⟨_, _, present, back, mem, ?_, ?_⟩ ?_
    all_goals
      unfold finish at *
      omega

/-- The run of free bytes that ends at the file's end and starts at `start`. -/
structure FreeRun (m : FreeBlobManager) (start : Nat) : Prop where
  order : start < m.nextOffset
  free : Set.Ico start m.nextOffset ⊆ mapBytes m.freeSectionsByPage
  edge : ∀ b ∈ mapBytes m.freeSectionsByPage, b + 1 ≠ start

theorem lastEntry {m : FreeBlobManager} {start pageNumber} {pages : List Nat} (well : Well m)
    (merged : Merged m.freeSectionsByPage) (run : FreeRun m start)
    (page : pageNumber = (m.nextOffset - 1) / pageSize)
    (last : pages ++ [pageNumber] <:+ m.freeSectionsByPage.keys) :
    ∃ entries init s, m.freeSectionsByPage.entries = entries ++ [(pageNumber, init ++ [s])] ∧
      pages <:+ entries.map Prod.fst ∧ s.offset ≤ max start (pageNumber * pageSize) ∧
      finish s = m.nextOffset := by
  obtain ⟨before, shape⟩ := last
  rw [← List.append_assoc] at shape
  obtain ⟨entries, rest, split, keys, single⟩ := List.map_eq_append_iff.mp shape.symm
  obtain ⟨⟨p, sections⟩, rfl, same⟩ := List.map_eq_singleton_iff.mp single
  dsimp only at same
  subst same
  have found : m.freeSectionsByPage.find p = some sections :=
    DenseMap.findMem.mpr (split ▸ List.mem_append_right _ List.mem_cons_self)
  obtain ⟨small, _, here⟩ := well.map _ _ found
  have positive : 0 < pageSize := by decide
  have order := run.order
  have divides := Nat.div_add_mod (m.nextOffset - 1) pageSize
  have rest := Nat.mod_lt (m.nextOffset - 1) positive
  rw [← page, Nat.mul_comm] at divides
  have next : (p + 1) * pageSize = p * pageSize + pageSize := Nat.succ_mul _ _
  have own : bytes sections = mapBytes m.freeSectionsByPage ∩ pageRange p := by
    rw [← pageBytesSome found, pageBytesEq well.map]
  have inside : Set.Ico (max start (p * pageSize)) m.nextOffset ⊆ bytes sections := by
    rw [own]
    intro b both
    obtain ⟨low, high⟩ := both
    obtain ⟨first, second⟩ := max_le_iff.mp low
    refine ⟨run.free ⟨first, high⟩, second, ?_⟩
    rw [next]
    omega
  have below : bytes sections ⊆ Set.Iio m.nextOffset := by
    rw [own]
    exact Set.inter_subset_left.trans well.below
  obtain ⟨init, s, rfl, low, top⟩ := lastSection here (merged _ _ found) (max_lt order (by omega)) inside below
  exact ⟨entries, init, s, split, ⟨before, keys.symm⟩, low, top⟩

theorem trimLast {turns} {m : FreeBlobManager} {pageNumber entries init s} (well : Well m)
    (split : m.freeSectionsByPage.entries = entries ++ [(pageNumber, init ++ [s])])
    (top : finish s = m.nextOffset) :
    let trimmed : FreeBlobManager := ⟨sub64 m.nextOffset s.size,
      putSections layout m.freeSectionsByPage pageNumber init⟩
    m.freeSectionsByPage.find pageNumber = some (init ++ [s]) ∧ PageWell pageNumber (init ++ [s]) ∧
      Well trimmed ∧ trimmed.nextOffset = s.offset ∧
      mapBytes trimmed.freeSectionsByPage = mapBytes m.freeSectionsByPage \ Set.Ico s.offset m.nextOffset ∧
      trimTail layout (turns + 1) m = if init = [] then trimTail layout turns trimmed else trimmed := by
  have isLast : m.freeSectionsByPage.entries.getLast? = some (pageNumber, init ++ [s]) := by
    rw [split, List.getLast?_concat]
  have found := DenseMap.findMem.mpr (List.mem_of_getLast? isLast)
  have isBack : (init ++ [s]).getLast? = some s := List.getLast?_concat
  obtain ⟨small, _, page⟩ := well.map _ _ found
  have stop := stopFinish page small (by simp : s ∈ init ++ [s])
  obtain ⟨wellNext, _, lower, left⟩ := trimOnce layout well found isBack top
  rw [List.dropLast_concat] at wellNext lower left
  refine ⟨found, page, wellNext, lower, left, ?_⟩
  rw [trimTail, isLast, Option.bind_some, isBack, Option.map_some]
  dsimp only
  rw [if_neg (by rw [stop, top]; simp), List.dropLast_concat]
  simp only [List.length_append, List.length_singleton, Nat.add_eq_right, List.length_eq_zero_iff]

theorem trimRun (stacked : DenseMap.Stacked layout) (k) {turns start} {m : FreeBlobManager} (well : Well m)
    (merged : Merged m.freeSectionsByPage) (run : FreeRun m start)
    (pages : start / pageSize + k = (m.nextOffset - 1) / pageSize)
    (last : List.range' (start / pageSize) (k + 1) <:+ m.freeSectionsByPage.keys) (enough : k < turns) :
    (trimTail layout turns m).nextOffset = start := by
  induction k generalizing turns m with
  | zero =>
    obtain ⟨turns, rfl⟩ : ∃ t, turns = t + 1 := ⟨turns - 1, by omega⟩
    rw [List.range'_concat, Nat.one_mul] at last
    obtain ⟨entries, init, s, split, _, low, top⟩ := lastEntry well merged run pages last
    obtain ⟨found, page, wellNext, lower, left, result⟩ := @trimLast layout turns _ _ _ _ _ well split top
    have inside := Nat.div_mul_le_self start pageSize
    rw [Nat.add_zero, max_eq_left inside] at low
    have first : s.offset = start := by
      rcases Nat.lt_or_ge s.offset start with before | after
      · have there : start - 1 ∈ mapBytes m.freeSectionsByPage :=
          ⟨_, _, found, s, by simp, by omega, by have := run.order; omega⟩
        have edge := run.edge _ there
        omega
      · omega
    rw [result]
    rw [first] at lower
    split
    · rw [trimStays turns wellNext, lower]
      intro b inMap
      rw [left] at inMap
      rw [lower]
      exact run.edge b inMap.1
    · exact lower
  | succ k ih =>
    obtain ⟨turns, rfl⟩ : ∃ t, turns = t + 1 := ⟨turns - 1, by omega⟩
    rw [List.range'_concat, Nat.one_mul] at last
    obtain ⟨entries, init, s, split, others, low, top⟩ := lastEntry well merged run pages last
    obtain ⟨found, page, wellNext, lower, left, result⟩ := @trimLast layout turns _ _ _ _ _ well split top
    have before : start < (start / pageSize + (k + 1)) * pageSize := by
      have within := Nat.lt_div_mul_add (a := start) (b := pageSize) (by decide)
      have scaled : (start / pageSize + 1) * pageSize ≤ (start / pageSize + (k + 1)) * pageSize :=
        Nat.mul_le_mul_right _ (by omega)
      rw [Nat.succ_mul] at scaled
      omega
    rw [max_eq_right (Nat.le_of_lt before)] at low
    have bounds := (page.inside s (by simp)).1
    have first : s.offset = (start / pageSize + (k + 1)) * pageSize := Nat.le_antisymm low bounds
    have alone : init = [] := by
      refine List.eq_nil_iff_forall_not_mem.mpr fun x mem => ?_
      have order := (orderedAround page.ordered).1 x mem
      have size := page.proper x (by simp [mem])
      have inside := (page.inside x (by simp [mem])).1
      unfold finish at order
      omega
    subst alone
    rw [result, if_pos rfl]
    have erased : (putSections layout m.freeSectionsByPage (start / pageSize + (k + 1)) []).entries = entries :=
      DenseMap.erasePops stacked split
    refine ih wellNext ?_ ⟨?_, ?_, ?_⟩ ?_ ?_ (by omega)
    · exact (dropBackTidy layout found).merged merged
    · rw [lower, first]
      exact before
    · rw [lower, left]
      intro b inside
      have ends : s.offset ≤ m.nextOffset := top ▸ Nat.le_add_right _ _
      exact ⟨run.free ⟨inside.1, inside.2.trans_le ends⟩, fun both => absurd inside.2 (not_lt.mpr both.1)⟩
    · intro b inside
      rw [left] at inside
      exact run.edge b inside.1
    · rw [lower, first, ← Nat.add_assoc]
      have next : (start / pageSize + k + 1) * pageSize = (start / pageSize + k) * pageSize + pageSize :=
        Nat.succ_mul _ _
      have positive : 0 < pageSize := by decide
      exact (Nat.div_eq_of_lt_le (by omega) (by omega)).symm
    · show _ <:+ List.map Prod.fst _
      rw [erased]
      exact others

/-! ## One release -/

/-- The pages of the free run that a release completes at the file's end are the last ones, in
order, once the release has given every page of the blob an entry. -/
def TrimOrdered (m : FreeBlobManager) (offset size : Nat) : Prop :=
  0 < size → offset + size = m.nextOffset →
    ∀ start ≤ offset, Set.Ico start offset ⊆ mapBytes m.freeSectionsByPage →
      (∀ b ∈ mapBytes m.freeSectionsByPage, b + 1 ≠ start) →
      pagesFrom (start / pageSize) ((m.nextOffset - 1) / pageSize) <:+
        keysWith m.freeSectionsByPage (pagesFrom (offset / pageSize) ((m.nextOffset - 1) / pageSize))

-- The free run in front of an offset has a first byte.
theorem runBack (byPage : Sections) (offset : Nat) :
    ∃ start ≤ offset, Set.Ico start offset ⊆ mapBytes byPage ∧ ∀ b ∈ mapBytes byPage, b + 1 ≠ start := by
  induction offset with
  | zero => exact ⟨0, le_refl _, by simp, fun b _ => Nat.succ_ne_zero b⟩
  | succ offset ih =>
    by_cases free : offset ∈ mapBytes byPage
    · obtain ⟨start, low, run, edge⟩ := ih
      refine ⟨start, low.trans (Nat.le_succ _), fun b inside => ?_, edge⟩
      rcases Nat.lt_or_ge b offset with before | last
      · exact run ⟨inside.1, before⟩
      · have same : b = offset := Nat.le_antisymm (Nat.lt_succ_iff.mp inside.2) last
        rwa [same]
    · refine ⟨offset + 1, le_refl _, by simp, fun b inside same => free ?_⟩
      rwa [← Nat.succ.inj same]

theorem sameTail {m after : FreeBlobManager} (well : Well after) (same : freeBytes after = freeBytes m)
    (lower : after.nextOffset ≤ m.nextOffset) (noTail : NoFreeTail m) : NoFreeTail after := by
  have inMap : ∀ b < m.nextOffset, b ∈ freeBytes m → b ∈ mapBytes m.freeSectionsByPage :=
    fun b low free => free.resolve_right (not_le.mpr low)
  intro b inside ends
  have low : b < after.nextOffset := well.below inside
  rcases Nat.lt_or_ge after.nextOffset m.nextOffset with less | all
  · have free : m.nextOffset - 1 ∈ freeBytes after := Or.inr (show after.nextOffset ≤ _ by omega)
    rw [same] at free
    exact noTail _ (inMap _ (by omega) free) (by omega)
  · have free : b ∈ freeBytes after := Or.inl inside
    rw [same] at free
    exact noTail b (inMap b (by omega) free) (by omega)

theorem releaseTail (stacked : DenseMap.Stacked layout) {m : FreeBlobManager} {offset size} (well : Well m)
    (merged : Merged m.freeSectionsByPage) (noTail : NoFreeTail m) (sound : UnregisterSound m offset size)
    (ordered : TrimOrdered m offset size) (live : Disjoint (blobBytes offset size) (freeBytes m)) :
    NoFreeTail (unregisterBlob layout m offset size).1 := by
  rcases Nat.eq_zero_or_pos size with empty | proper
  · subst empty
    obtain ⟨kept, same, lower, _⟩ := unregisterEmpty layout well sound
    exact sameTail kept same lower noTail
  have below := liveBelow proper live
  obtain ⟨after, walked, map, gained, tidy, result⟩ := unregisterWalk layout well sound.1 proper below
    (live.mono_right Set.subset_union_left)
  have kept : Well ⟨m.nextOffset, after⟩ := by
    refine ⟨map, ?_, well.small⟩
    rw [gained]
    exact Set.union_subset well.below fun b inside => inside.2.trans_le below
  rw [result]
  dsimp only
  split
  · rename_i ends
    obtain ⟨start, low, run, edge⟩ := runBack m.freeSectionsByPage offset
    have clear : ∀ b ∈ mapBytes after, b + 1 ≠ start := by
      intro b inside
      rw [gained] at inside
      rcases inside with old | own
      · exact edge b old
      · have high := own.1
        omega
    have whole : FreeRun ⟨m.nextOffset, after⟩ start := by
      refine ⟨show start < m.nextOffset by omega, fun b inside => ?_, clear⟩
      show b ∈ mapBytes after
      rw [gained]
      rcases Nat.lt_or_ge b offset with before | own
      · exact Or.inl (run ⟨inside.1, before⟩)
      · exact Or.inr ⟨own, ends ▸ inside.2⟩
    have pages : start / pageSize ≤ (m.nextOffset - 1) / pageSize := Nat.div_le_div_right (by omega)
    have counter : (offset + size - 1) / pageSize < 2 ^ 32 - 1 := by
      have limit := sound.1
      exact (Nat.div_lt_iff_lt_mul (by decide)).mpr (show _ < pageLimit by omega)
    have keys := unregisterKeys stacked _ _ _ (by omega) walked
    rw [ends] at keys
    have last := ordered proper ends start low run edge
    rw [← keys, pagesFrom, Nat.succ_sub pages] at last
    have count := last.length_le
    rw [List.length_range', DenseMap.keys, List.length_map] at count
    have trimmed := trimRun stacked _ kept (tidy.merged merged) whole
      (Nat.add_sub_cancel' pages) last count
    intro b inside
    have same := (trimWell layout after.entries.length kept).2
    rw [trimmed]
    rcases same.subset (Or.inl inside) with old | high
    · exact clear b old
    · have bound : m.nextOffset ≤ b := high
      omega
  · rename_i inner
    intro b inside
    show b + 1 ≠ m.nextOffset
    rw [gained] at inside
    rcases inside with old | own
    · exact noTail b old
    · have high := own.2
      omega

/-! ## Runs -/

-- Registrations and releases of live blobs.
def Released (w : World) : Call → Prop
  | .claimBlob _ _ => False
  | c => Allowed w c

instance (w) : (c : Call) → Decidable (Released w c)
  | .registerBlob size => inferInstanceAs (Decidable (Allowed w (.registerBlob size)))
  | .unregisterBlob offset size => inferInstanceAs (Decidable (Allowed w (.unregisterBlob offset size)))
  | .claimBlob _ _ => inferInstanceAs (Decidable False)

variable (layout) in
def system : System World Call := System.ofFunction start Released (perform layout)

def StepOrdered (w : World) : Call → Prop
  | .unregisterBlob offset size => UnregisterSound w.manager offset size ∧ TrimOrdered w.manager offset size
  | c => CallSound w c

/-- Every byte of the file is free or in a live blob, and its last one is not free. -/
structure Tight (w : World) : Prop where
  invariant : Invariant w
  noTail : NoFreeTail w.manager
  accounted : ∀ b < getFileSize w.manager,
    b ∈ mapBytes w.manager.freeSectionsByPage ∨ ∃ blob ∈ w.live, b ∈ range blob

theorem startTight : Tight start := by
  refine ⟨(runInvariant (appendLayout _ _)).initial start rfl, fun b inside => ?_, fun b low => ?_⟩
  · obtain ⟨p, sections, found, _⟩ := inside
    cases found
  · exact absurd low (Nat.not_lt_zero b)

theorem registerNoTail {m : FreeBlobManager} {size} (well : Well m) (noTail : NoFreeTail m)
    (sound : RegisterSound m size) (fewer : freeBytes (registerBlob layout m size).1 ⊆ freeBytes m) :
    NoFreeTail (registerBlob layout m size).1 ∧
      ∀ b < (registerBlob layout m size).1.nextOffset,
        b < m.nextOffset ∨ b ∈ blobBytes (registerBlob layout m size).2 size := by
  unfold RegisterSound at sound
  unfold registerBlob at fewer ⊢
  cases scanned : scan size 0 0 m.freeSectionsByPage.entries with
  | none =>
    simp only [scanned] at sound ⊢
    rw [u64Small sound]
    refine ⟨fun b inside ends => ?_, fun b low => ?_⟩
    · have low : b < m.nextOffset := well.below inside
      have top : b + 1 = m.nextOffset + size := ends
      exact noTail b inside (by omega)
    · rcases Nat.lt_or_ge b m.nextOffset with before | behind
      · exact Or.inl before
      · exact Or.inr ⟨behind, low⟩
  | some fit =>
    simp only [scanned] at fewer ⊢
    refine ⟨fun b inside ends => ?_, fun b low => Or.inl low⟩
    have top : b + 1 = m.nextOffset := ends
    rcases fewer (Or.inl inside) with old | high
    · exact noTail b old top
    · have bound : m.nextOffset ≤ b := high
      omega

theorem stepTight (stacked : DenseMap.Stacked layout) {w c} (tight : Tight w) (released : Released w c)
    (call : StepOrdered w c) : Tight (perform layout w c) := by
  have well := tight.invariant.well
  cases c with
  | registerBlob size =>
    have allowed : Allowed w (.registerBlob size) := released
    have sound : CallSound w (.registerBlob size) := call
    obtain ⟨kept, step, merged⟩ := performStep layout well tight.invariant.sound allowed sound
    obtain ⟨_, room, left, _⟩ := registerSpec layout well allowed sound
    obtain ⟨noTail, grown⟩ := @registerNoTail layout _ _ well tight.noTail sound (left ▸ Set.sdiff_subset)
    refine ⟨⟨kept, merged tight.invariant.merged, Ledger.stepSound step tight.invariant.sound⟩, noTail, ?_⟩
    intro b low
    have inFile : b < (registerBlob layout w.manager size).1.nextOffset := low
    by_cases own : b ∈ blobBytes (registerBlob layout w.manager size).2 size
    · exact Or.inr ⟨_, List.mem_cons_self, own⟩
    rcases tight.accounted b ((grown b low).resolve_right own) with free | ⟨blob, mem, inside⟩
    · have still := left.symm.subset ⟨Or.inl free, own⟩
      exact Or.inl (still.resolve_right (not_le.mpr inFile))
    · exact Or.inr ⟨blob, List.mem_cons_of_mem _ mem, inside⟩
  | unregisterBlob offset size =>
    have allowed : Allowed w (.unregisterBlob offset size) := released
    have sound : CallSound w (.unregisterBlob offset size) := call.1
    have mem : (offset, size) ∈ w.live := allowed
    have live := tight.invariant.sound.unfree _ (List.mem_map_of_mem mem)
    obtain ⟨kept, step, merged⟩ := performStep layout well tight.invariant.sound allowed sound
    obtain ⟨_, gained, _, lower, _⟩ := unregisterSpec layout well call.1 live
    have noTail := releaseTail stacked well tight.invariant.merged tight.noTail call.1 call.2 live
    refine ⟨⟨kept, merged tight.invariant.merged, Ledger.stepSound step tight.invariant.sound⟩, noTail, ?_⟩
    intro b low
    have inFile : b < (unregisterBlob layout w.manager offset size).1.nextOffset := low
    have back : b ∈ freeBytes w.manager ∪ blobBytes offset size →
        b ∈ mapBytes (unregisterBlob layout w.manager offset size).1.freeSectionsByPage :=
      fun inside => (gained.symm.subset inside).resolve_right (not_le.mpr inFile)
    rcases tight.accounted b (inFile.trans_le lower) with
      free | ⟨blob, there, inside⟩
    · exact Or.inl (back (Or.inl (Or.inl free)))
    · by_cases same : blob = (offset, size)
      · subst same
        exact Or.inl (back (Or.inr inside))
      · refine Or.inr ⟨blob, ?_, inside⟩
        show blob ∈ if (unregisterBlob layout w.manager offset size).2 then w.live.erase (offset, size) else w.live
        split
        · exact (List.mem_erase_of_ne same).mpr there
        · exact there
  | claimBlob offset size => exact released.elim

theorem runTight (stacked : DenseMap.Stacked layout) : Inductive ((system layout).under StepOrdered) Tight := by
  refine ⟨fun w first => ?_, fun w c after tight step => ?_⟩
  · cases first
    exact startTight
  · obtain ⟨call, released, rfl⟩ := step
    exact stepTight stacked tight released call

theorem tightEmpty {w} (tight : Tight w) (none_ : w.live = []) :
    getFileSize w.manager = 0 ∧ w.manager.freeSectionsByPage.entries = [] := by
  have nothing : w.manager.nextOffset = 0 := by
    by_contra positive
    have low : w.manager.nextOffset - 1 < getFileSize w.manager := show _ < w.manager.nextOffset by omega
    rcases tight.accounted _ low with free | ⟨blob, mem, _⟩
    · exact tight.noTail _ free (by omega)
    · rw [none_] at mem
      cases mem
  refine ⟨nothing, List.eq_nil_iff_forall_not_mem.mpr fun e mem => ?_⟩
  obtain ⟨_, nonempty, page⟩ := tight.invariant.well.map e.1 e.2 (DenseMap.findMem.mpr mem)
  obtain ⟨s, here⟩ := List.exists_mem_of_ne_nil _ nonempty
  have size := page.proper s here
  have below : s.offset < w.manager.nextOffset := tight.invariant.well.below
    ⟨_, _, DenseMap.findMem.mpr mem, s, here, le_refl _, by unfold finish; omega⟩
  omega

structure TailTrimmed (w : World) : Prop where
  trimmed : ∀ pageNumber sections, w.manager.freeSectionsByPage.find pageNumber = some sections →
    ∀ s ∈ sections, s.offset + s.size ≠ getFileSize w.manager
  emptied : w.live = [] → getFileSize w.manager = 0 ∧ w.manager.freeSectionsByPage.entries = []

theorem tailTrimmed (stacked : DenseMap.Stacked layout) {w}
    (reach : Reachable ((system layout).under StepOrdered) w) : TailTrimmed w := by
  have tight := reachableInvariant (runTight stacked) reach
  refine ⟨fun p sections found s mem ends => ?_, tightEmpty tight⟩
  have size := (tight.invariant.well.map _ _ found).2.2.proper s mem
  have top : s.offset + s.size = w.manager.nextOffset := ends
  exact tight.noTail (s.offset + s.size - 1) ⟨_, _, found, s, mem, by omega, by unfold finish; omega⟩ (by omega)

-- A free run has one first byte.
theorem runStart {m : FreeBlobManager} {offset size first} (low : first ≤ offset)
    (run : Set.Ico first offset ⊆ mapBytes m.freeSectionsByPage)
    (edge : ∀ b ∈ mapBytes m.freeSectionsByPage, b + 1 ≠ first)
    (pages : pagesFrom (first / pageSize) ((m.nextOffset - 1) / pageSize) <:+
      keysWith m.freeSectionsByPage (pagesFrom (offset / pageSize) ((m.nextOffset - 1) / pageSize))) :
    TrimOrdered m offset size := by
  intro _ _ start before free stop
  have same : start = first := by
    rcases Nat.lt_trichotomy start first with less | same | more
    · have inside : first - 1 ∈ Set.Ico start offset := ⟨by omega, by omega⟩
      exact absurd (Nat.sub_add_cancel (by omega)) (edge _ (free inside))
    · exact same
    · have inside : start - 1 ∈ Set.Ico first offset := ⟨by omega, by omega⟩
      exact absurd (Nat.sub_add_cancel (by omega)) (stop _ (run inside))
  rw [same]
  exact pages

/-! Everything behind the first ten bytes is released in ascending order, and the last blob takes the
free sections of two pages with it. -/

abbrev appended := appendLayout Nat (List Section)

def trimmedCalls : List Call :=
  [.registerBlob 10, .registerBlob (pageSize - 10), .registerBlob pageSize, .registerBlob 1,
    .unregisterBlob 10 (pageSize - 10), .unregisterBlob pageSize pageSize, .unregisterBlob (2 * pageSize) 1]

theorem lastOrdered :
    TrimOrdered ((trimmedCalls.take 6).foldl (perform appended) start).manager (2 * pageSize) 1 := by
  have entries : ((trimmedCalls.take 6).foldl (perform appended) start).manager.freeSectionsByPage.entries =
      [(0, [⟨10, pageSize - 10⟩]), (1, [⟨pageSize, pageSize⟩])] := by decide
  refine @runStart _ _ _ 10 (by decide) ?_ ?_ (by decide)
  · intro b inside
    rcases Nat.lt_or_ge b pageSize with front | behind
    · refine ⟨0, [⟨10, pageSize - 10⟩], DenseMap.findMem.mpr (by rw [entries]; simp), _, List.mem_singleton_self _, ?_⟩
      exact ⟨inside.1, by unfold finish; dsimp only; omega⟩
    · refine ⟨1, [⟨pageSize, pageSize⟩], DenseMap.findMem.mpr (by rw [entries]; simp), _, List.mem_singleton_self _, ?_⟩
      exact ⟨behind, by unfold finish; have := inside.2; dsimp only; omega⟩
  · intro b inside same
    obtain ⟨p, sections, found, s, mem, low, _⟩ := inside
    have there := DenseMap.findMem.mp found
    rw [entries] at there
    simp only [List.mem_cons, List.not_mem_nil, or_false, Prod.mk.injEq] at there
    rcases there with ⟨-, rfl⟩ | ⟨-, rfl⟩
    all_goals
      cases List.mem_singleton.mp mem
      simp only [pageSize] at low
      omega

theorem adjoiningTrimmed :
    TailTrimmed (trimmedCalls.foldl (perform appended) start) ∧
      (trimmedCalls.foldl (perform appended) start).manager.nextOffset = 10 := by
  refine ⟨tailTrimmed (appendStacked _ _) (reachableAllowed ?_), by decide⟩
  have inner : ∀ {m : FreeBlobManager} {offset size}, offset + size ≠ m.nextOffset → TrimOrdered m offset size :=
    fun other _ ends => absurd ends other
  refine ⟨⟨?_, by decide⟩, ⟨?_, by decide⟩, ⟨?_, by decide⟩, ⟨?_, by decide⟩,
    ⟨⟨by decide, inner (by decide)⟩, by decide⟩, ⟨⟨by decide, inner (by decide)⟩, by decide⟩,
    ⟨⟨by decide, lastOrdered⟩, by decide⟩, trivial⟩
  all_goals
    dsimp only [StepOrdered]
    decide

/-! The blob of page 1 is released before that of page 0, so page 0 has the later entry. When the
last blob goes, trimming comes to page 0 next and stops there: 200 MB stay in an empty file. -/

def strandedCalls : List Call :=
  [.registerBlob pageSize, .registerBlob pageSize, .registerBlob 1, .unregisterBlob pageSize pageSize,
    .unregisterBlob 0 pageSize, .unregisterBlob (2 * pageSize) 1]

theorem tailStranded :
    ¬∀ layout : Layout Nat (List Section), DenseMap.Stacked layout →
      ∀ w, Reachable (system layout) w → TailTrimmed w := by
  intro all
  have run : AllAllowed (fun w c => True ∧ Released w c)
      (perform (appendLayout Nat (List Section))) start strandedCalls := by decide
  have trimmed := all _ (appendStacked _ _) _ (reachableUnder (reachableAllowed run))
  have size := (trimmed.emptied (by decide)).1
  exact absurd size (by decide)

end Dewfall.BlobTail
