import Dewfall.General.DenseMap
import Dewfall.General.Words

/-! The free list of one packed file: free sections by page of 100 MB, and the offset behind
the last allocated byte. Iteration order of the page map is left to its layout. Serialization
of the free list is not modelled here. -/
namespace Dewfall.BlobManager
open General

def pageSize : Nat := 100 * 1024 * 1024

structure Section where
  offset : Nat
  size : Nat
  deriving DecidableEq, Repr

def Section.stop (s : Section) : Nat := u64 (s.offset + s.size)

abbrev Sections := DenseMap Nat (List Section)

structure FreeBlobManager where
  nextOffset : Nat
  freeSectionsByPage : Sections

def initial : FreeBlobManager := ⟨0, DenseMap.empty⟩
def getFileSize (m : FreeBlobManager) : Nat := m.nextOffset
def page (offset : Nat) : Nat := u32 (offset / pageSize)

variable (layout : Layout Nat (List Section))

/-- Stores a page's sections where they stand; a page left without sections loses its entry. -/
def putSections (byPage : Sections) (pageNumber : Nat) (sections : List Section) : Sections :=
  if sections = [] then byPage.erase layout pageNumber else byPage.assign pageNumber sections

/-! ## register_blob -/

structure Fit where
  pageNumber : Nat
  spillover : Nat
  before : List Section
  chosen : Section
  after : List Section
  deriving DecidableEq, Repr

-- The sum of the section's size and the spillover is a 32-bit sum.
def firstFit (size spillover : Nat) : List Section → Option (List Section × Section × List Section)
  | [] => none
  | s :: rest =>
    if size ≤ u32 (s.size + spillover) then some ([], s, rest)
    else (firstFit size spillover rest).map fun (before, chosen, after) => (s :: before, chosen, after)

/-- The spillover a page starts with: none unless the page follows the page that left it and
opens with a free section. -/
def carried (spillover spilloverPage pageNumber : Nat) (sections : List Section) : Nat :=
  if u32 (spilloverPage + 1) ≠ pageNumber ∨
      sections.head?.any (fun front => front.offset ≠ pageNumber * pageSize) then 0
  else spillover

def trailing (pageNumber : Nat) (sections : List Section) : Option Section :=
  sections.getLast?.filter fun back => back.stop = pageNumber * pageSize + pageSize

def scan (size : Nat) : Nat → Nat → List (Nat × List Section) → Option Fit
  | _, _, [] => none
  | spillover, spilloverPage, (pageNumber, sections) :: rest =>
    let spill := carried spillover spilloverPage pageNumber sections
    match firstFit size spill sections with
    | some (before, chosen, after) => some ⟨pageNumber, spill, before, chosen, after⟩
    | none =>
      match trailing pageNumber sections with
      | some back => scan size (u32 (spill + back.size)) pageNumber rest
      | none => scan size 0 spilloverPage rest

/-- The chosen page's sections once the request has been cut from the chosen one. -/
def cut (fit : Fit) (size : Nat) : List Section :=
  let taken := sub32 size fit.spillover
  if fit.chosen.size = taken then fit.before ++ fit.after
  else fit.before ++ ⟨u64 (fit.chosen.offset + taken), sub32 fit.chosen.size taken⟩ :: fit.after

/-- Walks back by page number from `previous + 1` and drops trailing sections. -/
def consumeTail : Nat → Nat → Sections → Sections
  | 0, _, byPage => byPage
  | previous + 1, remaining, byPage =>
    if remaining = 0 then byPage
    else match (byPage.find previous).bind fun sections => sections.getLast?.map (sections, ·) with
      | none => byPage
      | some (sections, back) =>
        if remaining < back.size then byPage
        else consumeTail previous (remaining - back.size)
          (putSections layout byPage previous sections.dropLast)

-- The page number is read once more when its sections are back: from the slot its entry had, which an erasure
-- fills with another entry unless it was the last one.
def slotPage (before after : Sections) (pageNumber : Nat) : Nat :=
  match after.entries[before.entries.findIdx fun e => e.1 = pageNumber]? with
  | some e => e.1
  | none => pageNumber

def registerBlob (m : FreeBlobManager) (size : Nat) : FreeBlobManager × Nat :=
  match scan size 0 0 m.freeSectionsByPage.entries with
  | none => (⟨u64 (m.nextOffset + size), m.freeSectionsByPage⟩, m.nextOffset)
  | some fit =>
    let left := putSections layout m.freeSectionsByPage fit.pageNumber (cut fit size)
    (⟨m.nextOffset, consumeTail layout (slotPage m.freeSectionsByPage left fit.pageNumber) fit.spillover left⟩,
      sub64 fit.chosen.offset fit.spillover)

/-! ## unregister_blob -/

/-- The section, merged with the next one when the two touch. -/
def absorbNext (s : Section) : List Section → List Section
  | [] => [s]
  | next :: rest =>
    if s.stop = next.offset then ⟨s.offset, u32 (s.size + next.size)⟩ :: rest else s :: next :: rest

def insertFree (sections : List Section) (piece : Section) : Option (List Section) :=
  let before := sections.takeWhile fun s => s.offset < piece.offset
  let after := sections.dropWhile fun s => s.offset < piece.offset
  if before.getLast?.any fun prev => piece.offset < prev.stop then none
  else if after.head?.any fun next => next.offset < piece.stop then none
  else match before.getLast? with
    | none => some (absorbNext piece after)
    | some prev =>
      if prev.stop = piece.offset then
        some (before.dropLast ++ absorbNext ⟨prev.offset, u32 (prev.size + piece.size)⟩ after)
      else some (before ++ absorbNext piece after)

def pieceIn (pageNumber offset size : Nat) : Section :=
  let start := max offset (pageNumber * pageSize)
  let stop := min (u64 (offset + size)) (pageNumber * pageSize + pageSize)
  ⟨start, u32 (sub64 stop start)⟩

-- The page counter is a 32-bit word: with `endPage` the largest word the loop has no end of its
-- own, and once it has come around it meets the range it freed first.
def unregisterPages (offset size endPage : Nat) : Nat → Nat → Sections → Sections × Bool
  | 0, _, byPage => (byPage, false)
  | turns + 1, pageNumber, byPage =>
    if endPage < pageNumber then (byPage, true)
    else
      let present := byPage.emplace layout pageNumber []
      match insertFree ((present.find pageNumber).getD []) (pieceIn pageNumber offset size) with
      | none => (present, false)
      | some sections =>
        unregisterPages offset size endPage turns (u32 (pageNumber + 1))
          (putSections layout present pageNumber sections)

/-- Gives trailing free sections back to the file's end, starting at the last entry of the map. -/
def trimTail : Nat → FreeBlobManager → FreeBlobManager
  | 0, m => m
  | turns + 1, m =>
    match m.freeSectionsByPage.entries.getLast?.bind fun e => e.2.getLast?.map (e, ·) with
    | none => m
    | some ((pageNumber, sections), back) =>
      if back.stop ≠ m.nextOffset then m
      else
        let trimmed : FreeBlobManager := ⟨sub64 m.nextOffset back.size,
          putSections layout m.freeSectionsByPage pageNumber sections.dropLast⟩
        if sections.length = 1 then trimTail turns trimmed else trimmed

def unregisterBlob (m : FreeBlobManager) (offset size : Nat) : FreeBlobManager × Bool :=
  let stop := u64 (offset + size)
  let endPage := u32 (sub64 stop 1 / pageSize)
  if m.nextOffset < stop then (m, false)
  else match unregisterPages layout offset size endPage (endPage + 2) (page offset)
      m.freeSectionsByPage with
    | (byPage, false) => (⟨m.nextOffset, byPage⟩, false)
    | (byPage, true) =>
      if stop = m.nextOffset then (trimTail layout byPage.entries.length ⟨m.nextOffset, byPage⟩, true)
      else (⟨m.nextOffset, byPage⟩, true)

/-! ## claim_blob -/

def fillGap (start : Nat) : Nat → Nat → FreeBlobManager → FreeBlobManager × Bool
  | 0, _, m => (m, false)
  | turns + 1, gapPos, m =>
    if start ≤ gapPos then (m, true)
    else
      let pieceEnd := min start (u64 ((gapPos / pageSize + 1) * pageSize))
      match unregisterBlob layout m gapPos (u32 (sub64 pieceEnd gapPos)) with
      | (left, false) => (left, false)
      | (left, true) => fillGap start turns pieceEnd left

def remnants (pos pieceEnd : Nat) (s : Section) : List Section :=
  if pos = s.offset ∧ pieceEnd = s.stop then []
  else if pos = s.offset then [⟨pieceEnd, u32 (sub64 s.stop pieceEnd)⟩]
  else if pieceEnd = s.stop then [⟨s.offset, u32 (sub64 pos s.offset)⟩]
  else [⟨s.offset, u32 (sub64 pos s.offset)⟩, ⟨pieceEnd, u32 (sub64 s.stop pieceEnd)⟩]

def carve (pos pieceEnd : Nat) : List Section → Option (List Section)
  | [] => none
  | s :: rest =>
    if pos < s.offset ∨ s.stop < pieceEnd then (carve pos pieceEnd rest).map (s :: ·)
    else some (remnants pos pieceEnd s ++ rest)

def claimPages (stop : Nat) : Nat → Nat → Sections → Sections × Bool
  | 0, _, byPage => (byPage, false)
  | turns + 1, pos, byPage =>
    if stop ≤ pos then (byPage, true)
    else
      let pieceEnd := min stop (u32 (page pos + 1) * pageSize)
      match (byPage.find (page pos)).bind (carve pos pieceEnd) with
      | none => (byPage, false)
      | some sections =>
        claimPages stop turns pieceEnd (putSections layout byPage (page pos) sections)

def claimBlob (m : FreeBlobManager) (offset size : Nat) : FreeBlobManager × Bool :=
  let stop := u64 (offset + size)
  if size = 0 then (m, false)
  else if m.nextOffset ≤ offset then
    fillGap layout offset (offset + 1) m.nextOffset ⟨stop, m.freeSectionsByPage⟩
  else if m.nextOffset < stop then (m, false)
  else
    let (byPage, claimed) := claimPages layout stop (stop + 1) offset m.freeSectionsByPage
    (⟨m.nextOffset, byPage⟩, claimed)

end Dewfall.BlobManager
