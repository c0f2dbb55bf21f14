import Dewfall.Core.BlobIndex
import Dewfall.Core.BlobWords
import Dewfall.General.Codec

/-! The free list written out and read back. The reader checks that the bytes it was given hold the
pages and sections they announce; what the sections say is taken over as it stands. -/
namespace Dewfall.BlobSerialize
open General General.Codec General.Transition BlobManager BlobFreeSpace BlobWords
open BlobIndex (serializeSection serializePage serializePayload calculateSerializedSize)

/-! ## deserialize -/

structure DewError where
  code : Nat
  msg : String
  deriving DecidableEq, Repr

def dataTooSmall : DewError := ⟨1, "Data size too small for deserialization"⟩
def insufficientPages : DewError := ⟨1, "Insufficient data for page count"⟩
def insufficientSections : DewError := ⟨1, "Insufficient data for sections"⟩

def readSections : Nat → Bytes → List Section
  | 0, _ => []
  | count + 1, bytes =>
    ⟨ofLittleEndian (bytes.take 8), ofLittleEndian ((bytes.drop 8).take 4)⟩ :: readSections count (bytes.drop 16)

def readPage : Reader DewError (Nat × List Section) := do
  let head ← take insufficientPages 8
  let count := ofLittleEndian (head.drop 4)
  let body ← take insufficientSections (16 * count)
  pure (ofLittleEndian (head.take 4), readSections count body)

variable (layout : Layout Nat (List Section))

-- Pages read before an error stay in the map.
def deserializePages : Nat → Bytes → Sections → Sections × Option DewError
  | 0, _, byPage => (byPage, none)
  | count + 1, bytes, byPage =>
    match readPage bytes with
    | .error e => (byPage, some e)
    | .ok ((pageNumber, sections), rest) =>
      deserializePages count rest (byPage.emplace layout pageNumber sections)

def deserialize (m : FreeBlobManager) (data : Bytes) : FreeBlobManager × Option DewError :=
  match take dataTooSmall 12 data with
  | .error e => (m, some e)
  | .ok (head, rest) =>
    let (byPage, error) := deserializePages layout (ofLittleEndian (head.drop 8)) rest m.freeSectionsByPage
    (⟨ofLittleEndian (head.take 8), byPage⟩, error)

/-! ## serialize -/

def image (bytes : List Nat) : Bytes := bytes.map (BitVec.ofNat 8)

structure SerializedFreeBlobManager where
  data : Bytes
  size : Nat
  offset : Nat

/-- The blob registers itself; the list it then holds must fit the size asked for. -/
def placeSelf : Nat → Nat → FreeBlobManager → FreeBlobManager × Nat × Nat
  | 0, _, m => (m, 0, 0)
  | turns + 1, attempt, m =>
    let size := u32 (calculateSerializedSize m + 32 * attempt)
    let (left, offset) := registerBlob layout m size
    if calculateSerializedSize left ≤ size then (left, size, offset)
    else placeSelf turns (attempt + 1) (unregisterBlob layout left offset size).1

-- The buffer is zeroed before the payload is copied in.
def buffer (m : FreeBlobManager) (size : Nat) : Bytes :=
  ((image (serializePayload m)) ++ List.replicate size 0).take size

def serialize (m : FreeBlobManager) : FreeBlobManager × SerializedFreeBlobManager :=
  let (left, size, offset) := placeSelf layout 5 0 m
  (left, ⟨buffer left size, size, offset⟩)

def serializePreallocated (m : FreeBlobManager) (offset size : Nat) : SerializedFreeBlobManager :=
  ⟨buffer m size, size, offset⟩

/-! ## What the reader accepts -/

/-- Bytes that hold these pages, with whatever comes behind them. -/
inductive Announced : List (Nat × List Section) → Bytes → Prop where
  | nil (rest) : Announced [] rest
  | cons {head body rest pages} (headLength : head.length = 8)
      (bodyLength : body.length = 16 * ofLittleEndian (head.drop 4)) (later : Announced pages rest) :
      Announced ((ofLittleEndian (head.take 4), readSections (ofLittleEndian (head.drop 4)) body) :: pages)
        (head ++ body ++ rest)

structure Described (data : Bytes) (nextOffset : Nat) (pages : List (Nat × List Section)) : Prop where
  header : ∃ head rest, data = head ++ rest ∧ head.length = 12 ∧ ofLittleEndian (head.take 8) = nextOffset ∧
    ofLittleEndian (head.drop 8) = pages.length ∧ Announced pages rest

def withPages (byPage : Sections) (pages : List (Nat × List Section)) : Sections :=
  pages.foldl (fun byPage e => byPage.emplace layout e.1 e.2) byPage

theorem takeWhole {error : DewError} {bytes rest : Bytes} {n} (length : bytes.length = n) :
    take error n (bytes ++ rest) = .ok (bytes, rest) := by
  subst length
  exact (readsTake bytes).1 rest

theorem takeParts {error : DewError} {n : Nat} {bytes taken rest : Bytes}
    (ok : take error n bytes = .ok (taken, rest)) : bytes = taken ++ rest ∧ taken.length = n := by
  unfold take at ok
  split at ok
  · cases ok
  · cases ok
    exact ⟨(List.take_append_drop n bytes).symm, List.length_take_of_le (by omega)⟩

theorem readPageWhole {head body rest : Bytes} (headLength : head.length = 8)
    (bodyLength : body.length = 16 * ofLittleEndian (head.drop 4)) :
    readPage (head ++ body ++ rest) =
      .ok ((ofLittleEndian (head.take 4), readSections (ofLittleEndian (head.drop 4)) body), rest) := by
  rw [List.append_assoc]
  show (take insufficientPages 8 (head ++ (body ++ rest)) >>= fun p => _) = _
  rw [takeWhole headLength]
  show (take insufficientSections (16 * ofLittleEndian (head.drop 4)) (body ++ rest) >>= fun p => _) = _
  rw [takeWhole bodyLength]
  rfl

theorem readPageParts {bytes rest : Bytes} {page} (ok : readPage bytes = .ok (page, rest)) :
    ∃ head body, bytes = head ++ body ++ rest ∧ head.length = 8 ∧
      body.length = 16 * ofLittleEndian (head.drop 4) ∧
      page = (ofLittleEndian (head.take 4), readSections (ofLittleEndian (head.drop 4)) body) := by
  change (take insufficientPages 8 bytes >>= fun p => _) = _ at ok
  cases first : take insufficientPages 8 bytes with
  | error e =>
    rw [first] at ok
    cases ok
  | ok p =>
    obtain ⟨head, behind⟩ := p
    rw [first] at ok
    change (take insufficientSections (16 * ofLittleEndian (head.drop 4)) behind >>= fun p => _) = _ at ok
    cases second : take insufficientSections (16 * ofLittleEndian (head.drop 4)) behind with
    | error e =>
      rw [second] at ok
      cases ok
    | ok p =>
      obtain ⟨body, after⟩ := p
      rw [second] at ok
      cases ok
      obtain ⟨rfl, headLength⟩ := takeParts first
      obtain ⟨rfl, bodyLength⟩ := takeParts second
      exact ⟨head, body, (List.append_assoc _ _ _).symm, headLength, bodyLength, rfl⟩

theorem pagesComplete {pages bytes} (announced : Announced pages bytes) (byPage : Sections) :
    deserializePages layout pages.length bytes byPage = (withPages layout byPage pages, none) := by
  induction announced generalizing byPage with
  | nil rest => rfl
  | cons headLength bodyLength later ih =>
    rw [List.length_cons, deserializePages, readPageWhole headLength bodyLength]
    exact ih _

theorem pagesSound {count bytes} {byPage : Sections}
    (ok : (deserializePages layout count bytes byPage).2 = none) :
    ∃ pages, pages.length = count ∧ Announced pages bytes := by
  induction count generalizing bytes byPage with
  | zero => exact ⟨[], rfl, .nil bytes⟩
  | succ count ih =>
    rw [deserializePages] at ok
    cases first : readPage bytes with
    | error e =>
      rw [first] at ok
      cases ok
    | ok p =>
      obtain ⟨page, rest⟩ := p
      rw [first] at ok
      obtain ⟨pages, length, later⟩ := ih ok
      obtain ⟨head, body, rfl, headLength, bodyLength, rfl⟩ := readPageParts first
      exact ⟨_ :: pages, by rw [List.length_cons, length], .cons headLength bodyLength later⟩

theorem describedRead {data nextOffset pages} (described : Described data nextOffset pages)
    (m : FreeBlobManager) :
    deserialize layout m data = (⟨nextOffset, withPages layout m.freeSectionsByPage pages⟩, none) := by
  obtain ⟨head, rest, rfl, length, rfl, count, announced⟩ := described.header
  unfold deserialize
  rw [takeWhole length]
  dsimp only
  rw [count, pagesComplete layout announced]

theorem deserializeIff (m : FreeBlobManager) (data : Bytes) :
    (deserialize layout m data).2 = none ↔ ∃ nextOffset pages, Described data nextOffset pages := by
  constructor
  · intro ok
    unfold deserialize at ok
    cases first : take dataTooSmall 12 data with
    | error e =>
      rw [first] at ok
      cases ok
    | ok p =>
      obtain ⟨head, rest⟩ := p
      rw [first] at ok
      obtain ⟨pages, length, announced⟩ := pagesSound layout ok
      obtain ⟨rfl, headLength⟩ := takeParts first
      exact ⟨_, pages, ⟨head, rest, rfl, headLength, rfl, length.symm, announced⟩⟩
  · rintro ⟨nextOffset, pages, described⟩
    rw [describedRead layout described]

/-! ## What the writer writes -/

theorem imageWord (width n : Nat) : image (BlobIndex.littleEndian width n) = littleEndian width n := by
  induction width generalizing n with
  | zero => rfl
  | succ width ih =>
    have byte : BitVec.ofNat 8 (n % 256) = BitVec.ofNat 8 n := by
      apply BitVec.eq_of_toNat_eq
      simp
    simp only [BlobIndex.littleEndian, littleEndian, image, List.map_cons, byte]
    exact congrArg _ (ih _)

theorem imageAppend (a b : List Nat) : image (a ++ b) = image a ++ image b := List.map_append

theorem wordBack {width n : Nat} (small : n < 256 ^ width) : ofLittleEndian (littleEndian width n) = n := by
  rw [ofLittleEndianBack, Nat.mod_eq_of_lt small]

theorem sectionsBack {sections : List Section} (words : SectionWords sections) :
    readSections sections.length (image (sections.flatMap serializeSection)) = sections := by
  induction sections with
  | nil => rfl
  | cons s rest ih =>
    obtain ⟨offset, size⟩ := words s List.mem_cons_self
    have first : image ((s :: rest).flatMap serializeSection) =
        littleEndian 8 s.offset ++ (littleEndian 4 s.size ++ (littleEndian 4 0 ++
          image (rest.flatMap serializeSection))) := by
      simp only [List.flatMap_cons, imageAppend, serializeSection, imageWord, List.append_assoc]
    have behind : (littleEndian 8 s.offset ++ (littleEndian 4 s.size ++ (littleEndian 4 0 ++
        image (rest.flatMap serializeSection)))).drop 16 = image (rest.flatMap serializeSection) := by
      rw [← List.append_assoc, ← List.append_assoc]
      exact List.drop_left' (by simp)
    rw [List.length_cons, readSections, first, behind, List.take_left' (by simp), List.drop_left' (by simp),
      List.take_left' (by simp), wordBack (by simpa using offset), wordBack (by simpa using size),
      ih fun x mem => words x (List.mem_cons_of_mem _ mem)]

theorem pageAnnounced {e : Nat × List Section} {pages rest} (number : e.1 < 2 ^ 32)
    (count : e.2.length < 2 ^ 32) (words : SectionWords e.2) (later : Announced pages rest) :
    Announced (e :: pages) (image (serializePage e) ++ rest) := by
  have body : (image (e.2.flatMap serializeSection)).length = 16 * e.2.length := by
    have whole := BlobIndex.serializePageLength e
    simp only [serializePage, List.length_append, BlobIndex.littleEndianLength] at whole
    rw [image, List.length_map]
    omega
  have low : (littleEndian 4 e.1 ++ littleEndian 4 e.2.length).take 4 = littleEndian 4 e.1 :=
    List.take_left' (by simp)
  have high : (littleEndian 4 e.1 ++ littleEndian 4 e.2.length).drop 4 = littleEndian 4 e.2.length :=
    List.drop_left' (by simp)
  have numberBack : ofLittleEndian (littleEndian 4 e.1) = e.1 := wordBack (by simpa using number)
  have countBack : ofLittleEndian (littleEndian 4 e.2.length) = e.2.length := wordBack (by simpa using count)
  have announced := @Announced.cons (littleEndian 4 e.1 ++ littleEndian 4 e.2.length)
    (image (e.2.flatMap serializeSection)) rest pages (by simp) (by rw [high, countBack, body]) later
  rw [low, high, numberBack, countBack, sectionsBack words] at announced
  simpa only [serializePage, imageAppend, imageWord] using announced

theorem pagesAnnounced {pages : List (Nat × List Section)} (rest : Bytes)
    (each : ∀ e ∈ pages, e.1 < 2 ^ 32 ∧ e.2.length < 2 ^ 32 ∧ SectionWords e.2) :
    Announced pages (image (pages.flatMap serializePage) ++ rest) := by
  induction pages with
  | nil => exact .nil _
  | cons e pages ih =>
    obtain ⟨number, count, words⟩ := each e List.mem_cons_self
    have later := ih fun x mem => each x (List.mem_cons_of_mem _ mem)
    rw [List.flatMap_cons, imageAppend, List.append_assoc]
    exact pageAnnounced number count words later

theorem payloadDescribed {m : FreeBlobManager} (rest : Bytes) (words : ManagerWords m)
    (fits : (serializePayload m).length < 2 ^ 32) :
    Described (image (serializePayload m) ++ rest) m.nextOffset m.freeSectionsByPage.entries := by
  have length := BlobIndex.serializePayloadLength m
  have total : listed m.freeSectionsByPage < 2 ^ 32 := by omega
  have each : ∀ e ∈ m.freeSectionsByPage.entries, 8 + 16 * e.2.length ≤ listed m.freeSectionsByPage := by
    intro e mem
    exact List.le_sum_of_mem (List.mem_map_of_mem mem)
  have pages : m.freeSectionsByPage.entries.length < 2 ^ 32 := by
    refine Nat.lt_of_le_of_lt ?_ total
    have many := List.length_le_sum_of_one_le (m.freeSectionsByPage.entries.map fun e => 8 + 16 * e.2.length)
      fun n mem => by
        obtain ⟨e, _, rfl⟩ := List.mem_map.mp mem
        omega
    rwa [List.length_map] at many
  refine ⟨littleEndian 8 m.nextOffset ++ littleEndian 4 m.freeSectionsByPage.entries.length,
    image (m.freeSectionsByPage.entries.flatMap serializePage) ++ rest, ?_, by simp, ?_, ?_, ?_⟩
  · simp only [serializePayload, imageAppend, imageWord, List.append_assoc]
  · rw [List.take_left' (by simp)]
    exact wordBack (by simpa using words.nextOffset)
  · rw [List.drop_left' (by simp)]
    exact wordBack (by simpa using pages)
  · refine pagesAnnounced rest fun e mem => ?_
    obtain ⟨number, kept⟩ := words.map e mem
    have part := each e mem
    exact ⟨number, by omega, kept⟩

theorem withPagesEntries (stacked : DenseMap.Stacked layout) {byPage : Sections}
    {pages : List (Nat × List Section)} (fresh : ((byPage.entries ++ pages).map Prod.fst).Nodup) :
    (withPages layout byPage pages).entries = byPage.entries ++ pages := by
  induction pages generalizing byPage with
  | nil => rw [List.append_nil]; rfl
  | cons e pages ih =>
    have absent : byPage.find e.1 = none := by
      refine DenseMap.findNone.mpr fun there => ?_
      rw [List.map_append, List.map_cons, List.nodup_append] at fresh
      exact fresh.2.2 _ there _ List.mem_cons_self rfl
    have entries : (byPage.emplace layout e.1 e.2).entries = byPage.entries ++ [e] := by
      rw [DenseMap.emplace, dif_pos absent]
      exact stacked.appends _ _ _
    have later := @ih (byPage.emplace layout e.1 e.2) (by rwa [entries, List.append_assoc, List.singleton_append])
    rw [entries, List.append_assoc, List.singleton_append] at later
    exact later

theorem reloadedMap (stacked : DenseMap.Stacked layout) (byPage : Sections) :
    withPages layout DenseMap.empty byPage.entries = byPage := by
  refine DenseMap.entriesExt ?_
  exact @withPagesEntries layout stacked DenseMap.empty byPage.entries byPage.distinct

-- Whatever stands in the four bytes behind each section's size and behind the last page.
theorem describedReloaded (stacked : DenseMap.Stacked layout) {m : FreeBlobManager} {data : Bytes}
    (described : Described data m.nextOffset m.freeSectionsByPage.entries) :
    deserialize layout initial data = (m, none) := by
  rw [describedRead layout described]
  show (FreeBlobManager.mk m.nextOffset (withPages layout DenseMap.empty _), none) = _
  rw [reloadedMap layout stacked]

theorem payloadReloaded (stacked : DenseMap.Stacked layout) {m : FreeBlobManager} (rest : Bytes)
    (words : ManagerWords m) (fits : (serializePayload m).length < 2 ^ 32) :
    deserialize layout initial (image (serializePayload m) ++ rest) = (m, none) :=
  describedReloaded layout stacked (payloadDescribed rest words fits)

/-! ## serialize finds a place at once -/

theorem registerListed {m : FreeBlobManager} (size : Nat) :
    listed (registerBlob layout m size).1.freeSectionsByPage ≤ listed m.freeSectionsByPage := by
  unfold registerBlob
  cases scanned : scan size 0 0 m.freeSectionsByPage.entries with
  | none => exact le_refl _
  | some fit =>
    have found := DenseMap.findMem.mpr (BlobRegister.scanFit (Or.inl rfl) scanned).entry
    have count : (cut fit size).length ≤ (fit.before ++ fit.chosen :: fit.after).length := by
      unfold cut
      dsimp only
      split <;> simp
    have left := (BlobRegister.consumeTidy layout (slotPage m.freeSectionsByPage
      (putSections layout m.freeSectionsByPage fit.pageNumber (cut fit size)) fit.pageNumber) fit.spillover
      (putSections layout m.freeSectionsByPage fit.pageNumber (cut fit size))).listed
    exact left.trans (@putListed layout _ _ _ (cut fit size) 0 found count)

theorem serializePlaced {m : FreeBlobManager} (fits : 12 + listed m.freeSectionsByPage < 2 ^ 32) :
    ∃ size, (serialize layout m).2.size = size ∧ (serialize layout m).2.data = buffer (serialize layout m).1 size ∧
      (serialize layout m).1 = (registerBlob layout m size).1 ∧
      (serializePayload (serialize layout m).1).length ≤ size ∧ size < 2 ^ 32 := by
  have asked : u32 (calculateSerializedSize m + 32 * 0) = 12 + listed m.freeSectionsByPage := by
    rw [BlobIndex.calculateListed, u32Small fits, Nat.mul_zero, Nat.add_zero, u32Small fits]
  have less := @registerListed layout m (12 + listed m.freeSectionsByPage)
  have room : calculateSerializedSize (registerBlob layout m (12 + listed m.freeSectionsByPage)).1 ≤
      12 + listed m.freeSectionsByPage := by
    rw [BlobIndex.calculateListed, u32Small (by omega)]
    omega
  have placed : placeSelf layout 5 0 m =
      ((registerBlob layout m (12 + listed m.freeSectionsByPage)).1, 12 + listed m.freeSectionsByPage,
        (registerBlob layout m (12 + listed m.freeSectionsByPage)).2) := by
    rw [placeSelf, asked]
    exact if_pos room
  unfold serialize
  rw [placed]
  dsimp only
  refine ⟨_, rfl, rfl, rfl, ?_, fits⟩
  rw [BlobIndex.serializePayloadLength]
  omega

theorem bufferPrefix {m : FreeBlobManager} {size} (room : (serializePayload m).length ≤ size) :
    ∃ rest, buffer m size = image (serializePayload m) ++ rest ∧ (buffer m size).length = size := by
  have length : (image (serializePayload m)).length = (serializePayload m).length := List.length_map _
  refine ⟨(List.replicate size 0).take (size - (image (serializePayload m)).length), ?_, ?_⟩
  · rw [buffer, List.take_append, List.take_of_length_le (by omega)]
  · rw [buffer, List.length_take, List.length_append, List.length_replicate]
    omega

theorem serializedReloads (stacked : DenseMap.Stacked layout) {m : FreeBlobManager}
    (reach : Reachable (BlobExact.system layout) m) :
    (∀ data, data.length < 2 ^ 32 → image (serializePayload m) <+: data →
      deserialize layout initial data = (m, none)) ∧
    (∀ data, Described data m.nextOffset m.freeSectionsByPage.entries →
      deserialize layout initial data = (m, none)) ∧
    (12 + listed m.freeSectionsByPage < 2 ^ 32 →
      deserialize layout initial (serialize layout m).2.data = ((serialize layout m).1, none)) ∧
    ∀ data, (deserialize layout initial data).2 = none ↔ ∃ nextOffset pages, Described data nextOffset pages := by
  have words := managerWords layout reach
  refine ⟨?_, fun data described => describedReloaded layout stacked described, fun fits => ?_,
    deserializeIff layout initial⟩
  · rintro data width ⟨rest, rfl⟩
    refine payloadReloaded layout stacked rest words ?_
    rw [List.length_append, image, List.length_map] at width
    omega
  · obtain ⟨size, _, data, registered, room, width⟩ := serializePlaced layout fits
    obtain ⟨rest, shape, _⟩ := bufferPrefix room
    rw [data, shape]
    refine payloadReloaded layout stacked rest ?_ (room.trans_lt width)
    rw [registered]
    exact registerWords layout size words

-- A blob over the first page boundary; freeing it leaves a section in either page.
def scatteredCalls : List BlobRuns.Call :=
  [.registerBlob 10, .registerBlob 20, .registerBlob 30, .registerBlob 104857600, .registerBlob 5,
    .unregisterBlob 10 20, .unregisterBlob 60 104857600]

def scattered : FreeBlobManager :=
  scatteredCalls.foldl (BlobExact.perform (appendLayout Nat (List Section))) initial

theorem oneFreeReloads :
    (scattered.freeSectionsByPage.entries = [(0, [⟨10, 20⟩, ⟨60, 104857540⟩]), (1, [⟨104857600, 60⟩])] ∧
      scattered.nextOffset = 104857665) ∧
    (∀ data : Bytes, data.length < 2 ^ 32 → image (serializePayload scattered) <+: data →
      deserialize (appendLayout Nat (List Section)) initial data = (scattered, none)) ∧
    (∀ data, Described data scattered.nextOffset scattered.freeSectionsByPage.entries →
      deserialize (appendLayout Nat (List Section)) initial data = (scattered, none)) ∧
    (12 + listed scattered.freeSectionsByPage < 2 ^ 32 →
      deserialize (appendLayout Nat (List Section)) initial
          (serialize (appendLayout Nat (List Section)) scattered).2.data =
        ((serialize (appendLayout Nat (List Section)) scattered).1, none)) ∧
    ∀ data, (deserialize (appendLayout Nat (List Section)) initial data).2 = none ↔
      ∃ nextOffset pages, Described data nextOffset pages := by
  have run : AllAllowed (fun m c => True ∧ BlobExact.Words m c)
      (BlobExact.perform (appendLayout Nat (List Section))) initial scatteredCalls := by decide
  exact ⟨by decide, serializedReloads _ (appendStacked _ _) (reachableUnder (reachableAllowed run))⟩

/-! Two sections that overlap and stand out of order are read as they are. -/

def overlapping : FreeBlobManager := ⟨100, ⟨[(0, [⟨10, 20⟩, ⟨0, 50⟩])], by decide⟩⟩

theorem overlapAccepted :
    ¬∀ layout data, (deserialize layout initial data).2 = none →
      MapWell (deserialize layout initial data).1.freeSectionsByPage := by
  intro all
  have read : deserialize (appendLayout Nat (List Section)) initial (image (serializePayload overlapping) ++ []) =
      (overlapping, none) :=
    payloadReloaded _ (appendStacked _ _) [] ⟨by decide, by unfold MapWords SectionWords; decide⟩ (by decide)
  have well := all (appendLayout Nat (List Section)) (image (serializePayload overlapping) ++ []) (by rw [read])
  rw [read] at well
  have page := (well 0 _ rfl).2.2
  exact absurd (List.pairwise_pair.mp page.ordered) (by decide)

end Dewfall.BlobSerialize
