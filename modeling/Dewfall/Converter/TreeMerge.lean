import Dewfall.Converter.PointSplitter
import Dewfall.General.Buffers
import Dewfall.General.StableSort

/-! Merging the subsets of a leaf into one unit: the codes in one stable sort, then every attribute to the
same places, converted to the format of the merged unit. How numbers of a type are converted is a
parameter. Where a copy leaves its blob or buffer there is no result. Compressing and storing the unit
are left out. -/
namespace Dewfall.TreeMerge
open General General.Cells General.SortedWindows General.StableSort MortonTree PointSplitter
open General.Buffers (block)
open Morton (Format)
open StorageMap (InputId Location)

inductive DewType where
  | u8 | i8 | u16 | i16 | u32 | i32 | m32 | r32 | u64 | i64 | m64 | r64 | m128 | m192
  deriving DecidableEq, Repr

structure Attribute where
  name : List Char
  type : DewType
  components : Nat
  deriving DecidableEq, Repr

abbrev Attributes := List Attribute
abbrev Configs := List Attributes

-- `DEW_ATTRIBUTE_XYZ`
def xyz : List Char := ['x', 'y', 'z']

def ofFormat : Format → DewType
  | .m32 => .m32
  | .m64 => .m64
  | .m128 => .m128
  | .m192 => .m192

def width : DewType → Nat
  | .u8 | .i8 => 8
  | .u16 | .i16 => 16
  | .u32 | .i32 | .m32 | .r32 => 32
  | .u64 | .i64 | .m64 | .r64 => 64
  | .m128 => 128
  | .m192 => 192

def isMorton : DewType → Bool
  | .m32 | .m64 | .m128 | .m192 => true
  | _ => false

-- The numbers of one component, and their type.
def numbersOf : DewType → Nat × DewType
  | .m32 => (1, .u32)
  | .m64 => (1, .u64)
  | .m128 => (2, .u64)
  | .m192 => (3, .u64)
  | type => (1, type)

/-! ## Attribute configurations -/

def getAttributeConfigIndex (configs : Configs) (attr : Attributes) : Configs × Nat :=
  match configs.findIdx? (· = attr) with
  | some i => (configs, i)
  | none => (configs ++ [attr], configs.length)

def containsAttribute (attributes : Attributes) (name : List Char) : Bool := attributes.any (·.name = name)

def addMissingAttributes (source target : Attributes) : Attributes :=
  source.foldl (fun target a => if containsAttribute target a.name then target else target ++ [a]) target

-- The first attribute of that name.
def createAttributeSourceLodInto (name : List Char) (attributes : Attributes) : Option (Nat × Attribute) :=
  (attributes.zipIdx.find? fun a => a.1.name = name).map fun a => (a.2, a.1)

structure LodMapping where
  destinationId : Nat
  destination : Attributes
  source : List (Nat × List (Option (Nat × Attribute)))

def sortedIds (ids : List Nat) : List Nat := (sortBy (fun id => id) ids).eraseDups

-- Original order is kept, and no attribute is left out: the mapping of a collapse.
def getLodAttributeMapping (configs : Configs) (lod : Nat) (ids : List Nat) : Option (Configs × LodMapping) :=
  match sortedIds ids with
  | [] => none
  | first :: rest =>
    let target := rest.foldl (fun target id => addMissingAttributes (configs.getD id []) target) (configs.getD first [])
    match target with
    | [] => none
    | position :: others =>
      let target := { position with type := ofFormat (typeFromLod lod), components := 1 } :: others
      let (configs, id) := getAttributeConfigIndex configs target
      some (configs, ⟨id, target, (first :: rest).map fun s =>
        (s, target.map fun a => createAttributeSourceLodInto a.name (configs.getD s []))⟩)

/-! ## Jobs -/

structure Info where
  attributesId : Nat
  locations : List Location
  deriving DecidableEq, Repr

structure Job where
  newId : InputId
  collection : Collection
  sources : List (InputId × Info)

def Job.info (job : Job) (id : InputId) : Option Info := (job.sources.find? (·.1 = id)).map (·.2)

structure Entry where
  absolute : Nat
  subsetIndex : Nat
  sourceIndex : Nat
  deriving DecidableEq, Repr

def appendAbsolute (points : Points) (subsetIndex : Nat) (subset : Subset) : List Entry :=
  ((points.codes.drop subset.offset).take subset.count).mapIdx fun i c =>
    ⟨upcast points.header.format c points.header.mortonMin, subsetIndex, subset.offset + i⟩

def readEntries (reads : Location → Option Points) (job : Job) : Nat → List Subset → Option (List Entry)
  | _, [] => some []
  | index, subset :: rest =>
    match (job.info subset.inputId).bind fun info => info.locations[0]?.bind reads with
    | none => none
    | some points => (readEntries reads job (index + 1) rest).map (appendAbsolute points index subset ++ ·)

-- What the bits of a type stand for, and the conversion between types: a number that the destination has
-- keeps its value.
structure Numbers (ρ : Type) where
  value : DewType → Nat → ρ
  cast : DewType → DewType → Nat → Nat
  exact : ∀ source destination n, (∃ m, value destination m = value source n) →
    value destination (cast source destination n) = value source n

variable {ρ : Type} (numbers : Numbers ρ)

def numberType (a : Attribute) : DewType := (numbersOf a.type).2

-- How many numbers a point has in a blob.
def stored (a : Attribute) : Nat := (numbersOf a.type).1 * a.components

-- How many are copied: the components of a code are not looked at, and the fifth enumerator is four by four.
def copied (a : Attribute) : Nat :=
  if isMorton a.type then (numbersOf a.type).1 else if a.components = 5 then 16 else a.components

def Known (a : Attribute) : Prop := 0 < a.components ∧ a.components ≤ 5
instance (a) : Decidable (Known a) := by unfold Known; infer_instance

def sizeForFormat (a : Attribute) : Nat := width a.type / 8 * a.components

def bufferSize (a : Attribute) (pointCount : Nat) : Nat := sizeForFormat a * pointCount % 2 ^ 32

-- The numbers of the points, one behind the other.
abbrev Buffer := List Nat

def attributeBuffer (a : Attribute) (pointCount : Nat) : Buffer :=
  List.replicate (bufferSize a pointCount / (width (numberType a) / 8)) 0

def convertPoint (source destination : Attribute) (numbersOfPoint : List Nat) : List Nat :=
  (List.range (copied destination)).map fun i =>
    if i < min (copied source) (copied destination) then
      numbers.cast (numberType source) (numberType destination) (numbersOfPoint.getD i 0)
    else 0

def convertPoints (inputId : InputId) (source : Attribute) (blob : Buffer) (destination : Attribute) :
    List (InputId × Nat) → Buffer → Option Buffer
  | [], buffer => some buffer
  | index :: rest, buffer =>
    let later := convertPoints inputId source blob destination rest (buffer.drop (copied destination))
    if index.1 = inputId then
      if index.2 * copied source + min (copied source) (copied destination) ≤ blob.length ∧
          copied destination ≤ buffer.length then
        later.map (convertPoint numbers source destination (block (copied source) blob index.2) ++ ·)
      else none
    else later.map (buffer.take (copied destination) ++ ·)

def copyAttributeForInput (inputId : InputId) (indices : List (InputId × Nat)) (source : Attribute) (blob : Buffer)
    (destination : Attribute) (buffer : Buffer) : Option Buffer :=
  if Known source ∧ Known destination then convertPoints numbers inputId source blob destination indices buffer
  else some buffer

-- An attribute that a source lacks, or whose blob cannot be read, is left as it is.
def quantizeBuffer (readAttribute : Location → Option Buffer) (indices : List (InputId × Nat)) (mapping : LodMapping)
    (inputId : InputId) (info : Info) (into : List (Option (Nat × Attribute))) (k : Nat) (buffer : Buffer) : Option Buffer :=
  match into[k + 1]?.join, mapping.destination[k + 1]? with
  | some (index, source), some destination =>
    match info.locations[index]?.bind readAttribute with
    | none => some buffer
    | some blob => copyAttributeForInput numbers inputId indices source blob destination buffer
  | _, _ => some buffer

def quantizeInput (readAttribute : Location → Option Buffer) (indices : List (InputId × Nat)) (mapping : LodMapping)
    (inputId : InputId) (info : Info) (into : List (Option (Nat × Attribute))) : Nat → List Buffer → Option (List Buffer)
  | _, [] => some []
  | k, buffer :: rest => (quantizeBuffer numbers readAttribute indices mapping inputId info into k buffer).bind fun buffer =>
    (quantizeInput readAttribute indices mapping inputId info into (k + 1) rest).map (buffer :: ·)

def idLe (a b : InputId) : Prop := a.data < b.data ∨ a.data = b.data ∧ a.sub ≤ b.sub
instance (a b) : Decidable (idLe a b) := by unfold idLe; infer_instance

def quantizeNext (readAttribute : Location → Option Buffer) (job : Job) (indices : List (InputId × Nat))
    (mapping : LodMapping) (buffers : List Buffer) (id : InputId) : Option (List Buffer) :=
  match job.info id with
  | none => none
  | some info =>
    match mapping.source.find? (·.1 = info.attributesId) with
    | none => none
    | some (_, into) => quantizeInput numbers readAttribute indices mapping id info into 0 buffers

def quantizeAttributes (readAttribute : Location → Option Buffer) (job : Job) (indices : List (InputId × Nat))
    (mapping : LodMapping) (buffers : List Buffer) : Option (List Buffer) :=
  (((indices.map Prod.fst).insertionSort idLe).eraseDups).foldlM
    (quantizeNext numbers readAttribute job indices mapping) buffers

structure Merged where
  points : Points
  attributesId : Nat
  buffers : List Buffer

def inputOf (job : Job) (e : Entry) : InputId := (job.collection.data[e.subsetIndex]?.map Subset.inputId).getD ⟨0, 0⟩

def mergeWorker (reads : Location → Option Points) (readAttribute : Location → Option Buffer) (configs : Configs)
    (job : Job) : Option (Configs × Merged) :=
  match readEntries reads job 0 job.collection.data with
  | none => none
  | some entries =>
    match sortBy Entry.absolute entries with
    | [] => none
    | first :: rest =>
      let entries := first :: rest
      let generatedMin := first.absolute
      let generatedMax := (entries.getLastD first).absolute
      let lodSpan := mortonLod generatedMin generatedMax
      let format := typeFromLod lodSpan
      match getLodAttributeMapping configs lodSpan (job.sources.map (·.2.attributesId)) with
      | none => none
      | some (configs, mapping) =>
        let indices := entries.map fun e => (inputOf job e, e.sourceIndex)
        let buffers := mapping.destination.tail.map fun a => attributeBuffer a entries.length
        -- The buffer of the codes is made for the size in thirty-two bits and filled with all of them.
        if format.total / 8 * entries.length < 2 ^ 32 then
          (quantizeAttributes numbers readAttribute job indices mapping buffers).map fun buffers =>
            (configs, ⟨⟨⟨job.newId, entries.length, generatedMin, generatedMax, lodSpan, format⟩,
              entries.map fun e => downcast format e.absolute⟩, mapping.destinationId, buffers⟩)
        else none

/-! ## Reading the subsets -/

-- The points of the subsets, in the order of the subsets.
def sourceEntries (codesOf : InputId → List Nat) (data : List Subset) (index : Nat) : List Entry :=
  (data.zipIdx index).flatMap fun p => (List.range p.1.count).map fun t =>
    ⟨(codesOf p.1.inputId).getD (p.1.offset + t) 0, p.2, p.1.offset + t⟩

-- Windows of sorted units whose points can be read, and not all of them empty. A blob's size is of thirty-two bits.
structure Refers (reads : Location → Option Points) (codesOf : InputId → List Nat) (job : Job) : Prop where
  sorted : ∀ p ∈ job.collection.data, Sorted (codesOf p.inputId)
  width : ∀ p ∈ job.collection.data, ∀ c ∈ codesOf p.inputId, c < 8 ^ 64
  within : ∀ p ∈ job.collection.data, p.offset + p.count ≤ (codesOf p.inputId).length
  sizes : ∀ p ∈ job.collection.data,
    (sortedUnit p.inputId (codesOf p.inputId)).header.format.total / 8 * (codesOf p.inputId).length < 2 ^ 32
  readable : ∀ p ∈ job.collection.data, ∃ info location, job.info p.inputId = some info ∧
    info.locations[0]? = some location ∧ reads location = some (sortedUnit p.inputId (codesOf p.inputId))
  some : ∃ p ∈ job.collection.data, 0 < p.count

theorem unitUpcast {id codes} (sorted : Sorted codes) (width : ∀ c ∈ codes, c < 8 ^ 64) :
    ∀ c ∈ codes, upcast (sortedUnit id codes).header.format (downcast (sortedUnit id codes).header.format c)
      (sortedUnit id codes).header.mortonMin = c := by
  intro c mem
  exact upcastStored (unitSame sorted (formatWide width) c mem)

theorem appendSpec {codesOf : InputId → List Nat} {p : Subset} (index : Nat) (sorted : Sorted (codesOf p.inputId))
    (width : ∀ c ∈ codesOf p.inputId, c < 8 ^ 64) (within : p.offset + p.count ≤ (codesOf p.inputId).length) :
    appendAbsolute (sortedUnit p.inputId (codesOf p.inputId)) index p =
      (List.range p.count).map fun t => ⟨(codesOf p.inputId).getD (p.offset + t) 0, index, p.offset + t⟩ := by
  have stored : (sortedUnit p.inputId (codesOf p.inputId)).codes.length = (codesOf p.inputId).length :=
    List.length_map _
  unfold appendAbsolute
  refine List.ext_getElem ?_ fun t first second => ?_
  · rw [List.length_mapIdx, List.length_take, List.length_drop, stored, List.length_map, List.length_range]
    omega
  · rw [List.length_map, List.length_range] at second
    have inside : p.offset + t < (codesOf p.inputId).length := by omega
    rw [List.getElem_mapIdx, List.getElem_take, List.getElem_drop, List.getElem_map, List.getElem_range]
    have bound : p.offset + t < (sortedUnit p.inputId (codesOf p.inputId)).codes.length := by omega
    have code : (sortedUnit p.inputId (codesOf p.inputId)).codes[p.offset + t] =
        downcast (sortedUnit p.inputId (codesOf p.inputId)).header.format ((codesOf p.inputId)[p.offset + t]) :=
      List.getElem_map _
    rw [code, unitUpcast sorted width _ (List.getElem_mem inside), List.getD_eq_getElem _ _ inside]

theorem readSpec {reads codesOf job} (refers : Refers reads codesOf job) {rest index}
    (mem : ∀ p ∈ rest, p ∈ job.collection.data) :
    readEntries reads job index rest = some (sourceEntries codesOf rest index) := by
  induction rest generalizing index with
  | nil => rfl
  | cons p later ih =>
    obtain ⟨here, others⟩ := List.forall_mem_cons.mp mem
    obtain ⟨info, location, known, first, read⟩ := refers.readable p here
    have points : ((job.info p.inputId).bind fun info => info.locations[0]?.bind reads) =
        some (sortedUnit p.inputId (codesOf p.inputId)) := by
      rw [known, Option.bind_some, first, Option.bind_some, read]
    unfold readEntries
    rw [points]
    dsimp only
    rw [ih others, Option.map_some, appendSpec index (refers.sorted p here) (refers.width p here) (refers.within p here)]
    rfl

/-! ## The order of the merged unit -/

def mergeOrder (codesOf : InputId → List Nat) (data : List Subset) : List Entry :=
  sortBy Entry.absolute (sourceEntries codesOf data 0)

-- Ties are kept in the order of the subsets, and within a subset in its order.
def Earlier (a b : Entry) : Prop :=
  a.subsetIndex < b.subsetIndex ∨ a.subsetIndex = b.subsetIndex ∧ a.sourceIndex < b.sourceIndex

theorem sourceMem {codesOf data index e} : e ∈ sourceEntries codesOf data index ↔
    ∃ i p, data[i]? = some p ∧ ∃ t < p.count,
      e = ⟨(codesOf p.inputId).getD (p.offset + t) 0, index + i, p.offset + t⟩ := by
  unfold sourceEntries
  rw [List.mem_flatMap]
  constructor
  · rintro ⟨⟨p, at_⟩, there, mem⟩
    obtain ⟨t, turn, rfl⟩ := List.mem_map.mp mem
    obtain ⟨low, found⟩ := List.mk_mem_zipIdx_iff_le_and_getElem?_sub.mp there
    refine ⟨at_ - index, p, found, t, List.mem_range.mp turn, ?_⟩
    dsimp only
    rw [Nat.add_sub_cancel' low]
  · rintro ⟨i, p, found, t, turn, rfl⟩
    refine ⟨(p, index + i), List.mk_mem_zipIdx_iff_le_and_getElem?_sub.mpr ⟨Nat.le_add_right _ _, ?_⟩,
      List.mem_map.mpr ⟨t, List.mem_range.mpr turn, rfl⟩⟩
    rw [Nat.add_sub_cancel_left]
    exact found

theorem sourceEarlier (codesOf : InputId → List Nat) (data : List Subset) (index : Nat) :
    (sourceEntries codesOf data index).Pairwise Earlier := by
  induction data generalizing index with
  | nil => exact List.Pairwise.nil
  | cons p rest ih =>
    refine List.pairwise_append.mpr ⟨?_, ih (index + 1), fun a first b second => ?_⟩
    · refine List.pairwise_map.mpr (List.pairwise_lt_range.imp fun {s t} less => Or.inr ⟨rfl, ?_⟩)
      exact Nat.add_lt_add_left less _
    · obtain ⟨t, _, rfl⟩ := List.mem_map.mp first
      obtain ⟨i, q, _, s, _, rfl⟩ := sourceMem.mp second
      refine Or.inl ?_
      dsimp only
      omega

theorem orderSorted (codesOf : InputId → List Nat) (data : List Subset) :
    Sorted ((mergeOrder codesOf data).map Entry.absolute) :=
  List.pairwise_map.mpr (sortBySorted _ _)

theorem orderWidth {reads codesOf job} (refers : Refers reads codesOf job) :
    ∀ c ∈ (mergeOrder codesOf job.collection.data).map Entry.absolute, c < 8 ^ 64 := by
  intro c mem
  obtain ⟨e, here, rfl⟩ := List.mem_map.mp mem
  obtain ⟨i, p, found, t, turn, rfl⟩ := sourceMem.mp ((sortByPerm _ _).mem_iff.mp here)
  have there := List.mem_of_getElem? found
  have within := refers.within p there
  have inside : p.offset + t < (codesOf p.inputId).length := by omega
  dsimp only
  rw [List.getD_eq_getElem _ _ inside]
  exact refers.width p there _ (List.getElem_mem inside)

theorem orderSome {reads codesOf job} (refers : Refers reads codesOf job) :
    mergeOrder codesOf job.collection.data ≠ [] := by
  obtain ⟨p, mem, some⟩ := refers.some
  obtain ⟨i, bound, here⟩ := List.getElem_of_mem mem
  have there : (⟨(codesOf p.inputId).getD (p.offset + 0) 0, 0 + i, p.offset + 0⟩ : Entry) ∈
      mergeOrder codesOf job.collection.data :=
    (sortByPerm _ _).mem_iff.mpr (sourceMem.mpr ⟨i, p, here ▸ List.getElem?_eq_getElem bound, 0, some, rfl⟩)
  exact List.ne_nil_of_mem there

/-! ## Which attribute a name finds -/

def named (name : List Char) (attributes : Attributes) : Option Attribute := attributes.find? (·.name = name)

theorem namedAt {name attributes} (start : Nat) :
    ((attributes.zipIdx start).find? fun a : Attribute × Nat => a.1.name = name).map Prod.fst = named name attributes := by
  induction attributes generalizing start with
  | nil => rfl
  | cons a rest ih =>
    unfold named
    rw [List.zipIdx_cons]
    by_cases same : a.name = name
    · rw [List.find?_cons_of_pos (by simpa using same), List.find?_cons_of_pos (by simpa using same)]
      rfl
    · rw [List.find?_cons_of_neg (by simpa using same), List.find?_cons_of_neg (by simpa using same)]
      exact ih (start + 1)

theorem intoNamed (name : List Char) (attributes : Attributes) :
    (createAttributeSourceLodInto name attributes).map Prod.snd = named name attributes := by
  rw [← namedAt 0, createAttributeSourceLodInto, Option.map_map]
  rfl

theorem intoSome {name attributes i a} (found : createAttributeSourceLodInto name attributes = some (i, a)) :
    attributes[i]? = some a ∧ a.name = name := by
  obtain ⟨⟨b, j⟩, here, same⟩ := Option.map_eq_some_iff.mp found
  cases same
  have mem := List.mem_of_find?_eq_some here
  refine ⟨List.mem_zipIdx_iff_getElem?.mp mem, ?_⟩
  simpa using List.find?_some here

theorem intoOf {name attributes a} (found : named name attributes = some a) :
    ∃ i, createAttributeSourceLodInto name attributes = some (i, a) := by
  rw [← intoNamed] at found
  obtain ⟨⟨i, b⟩, here, rfl⟩ := Option.map_eq_some_iff.mp found
  exact ⟨i, here⟩

theorem containsNamed (attributes : Attributes) (name : List Char) :
    containsAttribute attributes name = (named name attributes).isSome := by
  rw [Bool.eq_iff_iff]
  simp [containsAttribute, named]

theorem addMissingNamed (name : List Char) (source target : Attributes) :
    named name (addMissingAttributes source target) = (named name target).or (named name source) := by
  unfold addMissingAttributes
  induction source generalizing target with
  | nil => exact (Option.or_none).symm
  | cons a rest ih =>
    rw [List.foldl_cons, ih]
    have split : named name (a :: rest) = if a.name = name then some a else named name rest := by
      unfold named
      rw [List.find?_cons]
      by_cases same : a.name = name
      · simp [same]
      · simp [same]
    rw [split, containsNamed]
    by_cases same : a.name = name
    · rw [if_pos same, same]
      cases here : named name target with
      | some b => simp [here]
      | none =>
        have added : named name (target ++ [a]) = some a := by
          unfold named at here ⊢
          rw [List.find?_append, here]
          simp [same]
        simp [added]
    · rw [if_neg same]
      split
      · rfl
      · have added : named name (target ++ [a]) = named name target := by
          unfold named
          rw [List.find?_append, List.find?_cons_of_neg (by simpa using same)]
          simp
        rw [added]

-- The format that a name gets: of the first configuration that has it.
def destinationOf (configs : Configs) (ids : List Nat) (name : List Char) : Option Attribute :=
  ids.findSome? fun id => named name (configs.getD id [])

theorem foldNamed (configs : Configs) (name : List Char) (ids : List Nat) (target : Attributes) :
    named name (ids.foldl (fun target id => addMissingAttributes (configs.getD id []) target) target) =
      (named name target).or (destinationOf configs ids name) := by
  induction ids generalizing target with
  | nil => exact (Option.or_none).symm
  | cons id rest ih =>
    have first : destinationOf configs (id :: rest) name =
        (named name (configs.getD id [])).or (destinationOf configs rest name) := by
      unfold destinationOf
      rw [List.findSome?_cons]
      cases named name (configs.getD id []) <;> rfl
    rw [List.foldl_cons, ih, addMissingNamed, Option.or_assoc, first]

theorem addMissingHead (source : Attributes) (position : Attribute) (others : Attributes) :
    ∃ more, addMissingAttributes source (position :: others) = position :: more := by
  unfold addMissingAttributes
  induction source generalizing others with
  | nil => exact ⟨others, rfl⟩
  | cons a rest ih =>
    rw [List.foldl_cons]
    split
    · exact ih others
    · exact ih (others ++ [a])

theorem foldHead (configs : Configs) (ids : List Nat) (position : Attribute) (others : Attributes) :
    ∃ more, ids.foldl (fun target id => addMissingAttributes (configs.getD id []) target) (position :: others) =
      position :: more := by
  induction ids generalizing others with
  | nil => exact ⟨others, rfl⟩
  | cons id rest ih =>
    obtain ⟨more, same⟩ := addMissingHead (configs.getD id []) position others
    rw [List.foldl_cons, same]
    exact ih more

-- The attributes of the configurations, each name once, as the merged unit has them.
def unionOf (configs : Configs) (ids : List Nat) : Attributes :=
  match sortedIds ids with
  | [] => []
  | first :: rest => rest.foldl (fun target id => addMissingAttributes (configs.getD id []) target) (configs.getD first [])

theorem addMissingMem {source target : Attributes} {a : Attribute} (mem : a ∈ addMissingAttributes source target) :
    a ∈ target ∨ a ∈ source := by
  unfold addMissingAttributes at mem
  induction source generalizing target with
  | nil => exact Or.inl mem
  | cons b rest ih =>
    rw [List.foldl_cons] at mem
    rcases ih mem with old | new
    · split at old
      · exact Or.inl old
      · rcases List.mem_append.mp old with kept | added
        · exact Or.inl kept
        · exact Or.inr (List.mem_cons.mpr (Or.inl (List.mem_singleton.mp added)))
    · exact Or.inr (List.mem_cons_of_mem _ new)

theorem foldMem {configs : Configs} {ids : List Nat} {target : Attributes} {a : Attribute}
    (mem : a ∈ ids.foldl (fun target id => addMissingAttributes (configs.getD id []) target) target) :
    a ∈ target ∨ ∃ id ∈ ids, a ∈ configs.getD id [] := by
  induction ids generalizing target with
  | nil => exact Or.inl mem
  | cons id rest ih =>
    rw [List.foldl_cons] at mem
    rcases ih mem with old | ⟨other, listed, there⟩
    · exact (addMissingMem old).imp_right fun here => ⟨id, List.mem_cons_self, here⟩
    · exact Or.inr ⟨other, List.mem_cons_of_mem _ listed, there⟩

theorem unionMem {configs : Configs} {ids : List Nat} {a : Attribute} (mem : a ∈ unionOf configs ids) :
    ∃ id ∈ ids, a ∈ configs.getD id [] := by
  have listed : ∀ id ∈ sortedIds ids, id ∈ ids := fun id there => by
    rw [sortedIds, List.mem_eraseDups, (sortByPerm _ _).mem_iff] at there
    exact there
  unfold unionOf at mem
  cases sorted : sortedIds ids with
  | nil =>
    rw [sorted] at mem
    cases mem
  | cons first rest =>
    rw [sorted] at mem listed
    rcases foldMem mem with own | ⟨id, there, here⟩
    · exact ⟨first, listed first List.mem_cons_self, own⟩
    · exact ⟨id, listed id (List.mem_cons_of_mem _ there), here⟩

-- Every configuration begins with the position; the reader refuses a file where it does not.
def Positioned (configs : Configs) (id : Nat) : Prop :=
  ∃ position others, configs[id]? = some (position :: others) ∧ position.name = xyz

theorem namedTail {name : List Char} {position : Attribute} {others : Attributes} (own : position.name = xyz)
    (other : name ≠ xyz) : named name (position :: others) = named name others := by
  unfold named
  rw [List.find?_cons_of_neg (by simpa [own] using Ne.symm other)]

theorem configIndex (configs : Configs) (attr : Attributes) :
    (getAttributeConfigIndex configs attr).1[(getAttributeConfigIndex configs attr).2]? = some attr := by
  unfold getAttributeConfigIndex
  cases found : configs.findIdx? (· = attr) with
  | none => simp
  | some i =>
    obtain ⟨bound, same, _⟩ := List.findIdx?_eq_some_iff_getElem.mp found
    dsimp only
    rw [List.getElem?_eq_getElem bound, of_decide_eq_true same]

theorem configKept {configs : Configs} {attr attributes : Attributes} {s : Nat} (found : configs[s]? = some attributes) :
    (getAttributeConfigIndex configs attr).1[s]? = some attributes := by
  unfold getAttributeConfigIndex
  split
  · exact found
  · obtain ⟨bound, _⟩ := List.getElem?_eq_some_iff.mp found
    rw [List.getElem?_append_left bound]
    exact found

structure Mapped (configs : Configs) (ids : List Nat) (configs' : Configs) (mapping : LodMapping) : Prop where
  stored : configs'[mapping.destinationId]? = some mapping.destination
  head : ∃ position others, mapping.destination = position :: others ∧ position.name = xyz
  tail : mapping.destination.tail = (unionOf configs ids).tail
  named : ∀ name, name ≠ xyz → named name mapping.destination = destinationOf configs (sortedIds ids) name
  kept : ∀ (s : Nat) attributes, configs[s]? = some attributes → configs'[s]? = some attributes
  source : mapping.source = (sortedIds ids).map fun s =>
    (s, mapping.destination.map fun a => createAttributeSourceLodInto a.name (configs'.getD s []))

theorem mappingSpec {configs : Configs} {ids : List Nat} (lod : Nat) (some_ : sortedIds ids ≠ [])
    (positioned : ∀ id ∈ sortedIds ids, Positioned configs id) :
    ∃ configs' mapping, getLodAttributeMapping configs lod ids = some (configs', mapping) ∧
      Mapped configs ids configs' mapping := by
  unfold getLodAttributeMapping
  cases sorted : sortedIds ids with
  | nil => exact absurd sorted some_
  | cons first rest =>
    obtain ⟨position, others, found, own⟩ := positioned first (sorted ▸ List.mem_cons_self)
    have head : configs.getD first [] = position :: others := by
      rw [List.getD_eq_getElem?_getD, found, Option.getD_some]
    obtain ⟨more, all⟩ := foldHead configs rest position others
    dsimp only
    rw [head, all]
    dsimp only
    have union : unionOf configs ids = position :: more := by
      unfold unionOf
      rw [sorted]
      dsimp only
      rw [head, all]
    refine ⟨_, _, rfl, configIndex _ _, ⟨_, _, rfl, own⟩, union ▸ rfl, fun name other => ?_, fun s _ => configKept,
      by rw [sorted]⟩
    have folded := foldNamed configs name rest (position :: others)
    rw [all, namedTail own other] at folded
    have typed : named name ({ position with type := ofFormat (typeFromLod lod), components := 1 } :: more) =
        named name more := namedTail own other
    have whole : destinationOf configs (first :: rest) name =
        (named name (position :: others)).or (destinationOf configs rest name) := by
      unfold destinationOf
      rw [List.findSome?_cons, head]
      cases named name (position :: others) <;> rfl
    rw [sorted, whole, ← folded]
    exact typed

/-! ## The attributes of the merged points -/

-- As many numbers of a point are copied as are stored.
def Plain (a : Attribute) : Prop := if isMorton a.type then a.components = 1 else 0 < a.components ∧ a.components < 5
instance (a) : Decidable (Plain a) := by unfold Plain; infer_instance

theorem plainCopied {a : Attribute} (plain : Plain a) : Known a ∧ copied a = stored a := by
  unfold Plain at plain
  unfold Known copied stored
  split at plain
  · rename_i morton
    rw [if_pos morton, plain, Nat.mul_one]
    exact ⟨by omega, rfl⟩
  · rename_i other
    have one : (numbersOf a.type).1 = 1 := by
      cases type : a.type <;> simp [type, isMorton, numbersOf] at other ⊢
    rw [if_neg other, if_neg (by omega), one, Nat.one_mul]
    exact ⟨by omega, rfl⟩

theorem numberSize (type : DewType) : width type / 8 = width (numbersOf type).2 / 8 * (numbersOf type).1 ∧
    0 < width (numbersOf type).2 / 8 := by
  cases type <;> decide

theorem attributeBufferWhole {a : Attribute} {points : Nat} (small : sizeForFormat a * points < 2 ^ 32) :
    attributeBuffer a points = List.replicate (stored a * points) 0 := by
  obtain ⟨parts, some_⟩ := numberSize a.type
  have bytes : sizeForFormat a * points = width (numberType a) / 8 * (stored a * points) := by
    rw [sizeForFormat, parts, stored, numberType, Nat.mul_assoc, Nat.mul_assoc, Nat.mul_assoc]
  have number : 0 < width (numberType a) / 8 := some_
  unfold attributeBuffer bufferSize
  rw [Nat.mod_eq_of_lt small, bytes, Nat.mul_div_cancel_left _ number]

def pointAt (d : Attribute) (buffers : List Buffer) (k j : Nat) : List Nat := block (stored d) (buffers.getD k []) j

-- What an input writes for one of its points; nothing where it lacks the attribute or cannot be read.
def written (readAttribute : Location → Option Buffer) (mapping : LodMapping) (info : Info)
    (into : List (Option (Nat × Attribute))) (k sourceIndex : Nat) : Option (List Nat) :=
  match into[k + 1]?.join, mapping.destination[k + 1]? with
  | some (index, source), some destination => (info.locations[index]?.bind readAttribute).map fun blob =>
    convertPoint numbers source destination (block (stored source) blob sourceIndex)
  | _, _ => none

-- The blobs that an input's attributes are read from hold all the points that are asked of it.
def Within (readAttribute : Location → Option Buffer) (indices : List (InputId × Nat)) (id : InputId) (info : Info)
    (into : List (Option (Nat × Attribute))) : Prop :=
  ∀ (k index : Nat) source blob, into[k + 1]?.join = some (index, source) →
    info.locations[index]?.bind readAttribute = some blob →
    Plain source ∧ ∀ i ∈ indices, i.1 = id → (i.2 + 1) * stored source ≤ blob.length

theorem convertSpec (id : InputId) (source destination : Attribute) (blob : Buffer) {indices : List (InputId × Nat)}
    {buffer : Buffer} (room : buffer.length = copied destination * indices.length)
    (within : ∀ i ∈ indices, i.1 = id → (i.2 + 1) * copied source ≤ blob.length) :
    ∃ buffer', convertPoints numbers id source blob destination indices buffer = some buffer' ∧
      buffer'.length = copied destination * indices.length ∧
      ∀ j (inside : j < indices.length), block (copied destination) buffer' j =
        if indices[j].1 = id then convertPoint numbers source destination (block (copied source) blob indices[j].2)
        else block (copied destination) buffer j := by
  induction indices generalizing buffer with
  | nil => exact ⟨buffer, rfl, room, fun j inside => absurd inside (Nat.not_lt_zero j)⟩
  | cons index rest ih =>
    obtain ⟨here, others⟩ := List.forall_mem_cons.mp within
    rw [List.length_cons, Nat.mul_succ] at room
    have after : (buffer.drop (copied destination)).length = copied destination * rest.length := by
      rw [List.length_drop]
      omega
    obtain ⟨later, run, length, points⟩ := ih after others
    -- The block of the first index, and behind it those of the others.
    have joined : ∀ x : List Nat, x.length = copied destination →
        x = (if index.1 = id then convertPoint numbers source destination (block (copied source) blob index.2)
          else block (copied destination) buffer 0) →
        (x ++ later).length = copied destination * (rest.length + 1) ∧
        ∀ j (inside : j < (index :: rest).length), block (copied destination) (x ++ later) j =
          if (index :: rest)[j].1 = id then
            convertPoint numbers source destination (block (copied source) blob (index :: rest)[j].2)
          else block (copied destination) buffer j := by
      intro x whole same
      refine ⟨by rw [List.length_append, whole, length, Nat.mul_succ, Nat.add_comm], fun j inside => ?_⟩
      cases j with
      | zero => rw [Buffers.blockFirst whole, same]; rfl
      | succ j =>
        rw [Buffers.blockNext whole, points j (Nat.lt_of_succ_lt_succ inside), Buffers.blockDrop]
        rfl
    unfold convertPoints
    dsimp only
    rw [run]
    by_cases own : index.1 = id
    · have bound := here own
      rw [Nat.succ_mul] at bound
      rw [if_pos own, if_pos ⟨by omega, by omega⟩, Option.map_some]
      refine ⟨_, rfl, joined _ ?_ (if_pos own).symm⟩
      rw [convertPoint, List.length_map, List.length_range]
    · rw [if_neg own, Option.map_some]
      refine ⟨_, rfl, joined _ ?_ ?_⟩
      · rw [List.length_take]
        omega
      · rw [if_neg own, block, Nat.zero_mul, List.drop_zero]

theorem quantizeBufferSpec {readAttribute : Location → Option Buffer} {indices mapping id info into}
    (within : Within readAttribute indices id info into) {k d} (destination : mapping.destination[k + 1]? = some d)
    (plain : Plain d) {buffer : Buffer} (room : buffer.length = stored d * indices.length) :
    ∃ buffer', quantizeBuffer numbers readAttribute indices mapping id info into k buffer = some buffer' ∧
      buffer'.length = stored d * indices.length ∧
      ∀ j (inside : j < indices.length), block (stored d) buffer' j =
        if indices[j].1 = id then
          (written numbers readAttribute mapping info into k indices[j].2).getD (block (stored d) buffer j)
        else block (stored d) buffer j := by
  unfold quantizeBuffer written
  rw [destination]
  cases from_ : into[k + 1]?.join with
  | none => exact ⟨buffer, rfl, room, fun j inside => by simp⟩
  | some found =>
    obtain ⟨index, source⟩ := found
    dsimp only
    cases read : info.locations[index]?.bind readAttribute with
    | none => exact ⟨buffer, rfl, room, fun j inside => by simp⟩
    | some blob =>
      obtain ⟨own, enough⟩ := within k index source blob from_ read
      obtain ⟨known, same⟩ := plainCopied own
      obtain ⟨known', same'⟩ := plainCopied plain
      rw [← same] at enough
      rw [← same'] at room
      obtain ⟨buffer', run, length, points⟩ := convertSpec numbers id source d blob room enough
      refine ⟨buffer', ?_, same' ▸ length, fun j inside => ?_⟩
      · dsimp only
        rw [copyAttributeForInput, if_pos ⟨known, known'⟩]
        exact run
      · rw [← same, ← same']
        exact points j inside

theorem quantizeInputEach {readAttribute : Location → Option Buffer} {indices mapping id info into k} {buffers : List Buffer}
    (each : ∀ (i : Nat) b, buffers[i]? = some b →
      ∃ b', quantizeBuffer numbers readAttribute indices mapping id info into (k + i) b = some b') :
    ∃ buffers', quantizeInput numbers readAttribute indices mapping id info into k buffers = some buffers' ∧
      buffers'.length = buffers.length ∧ ∀ (i : Nat) b, buffers[i]? = some b →
        ∃ b', quantizeBuffer numbers readAttribute indices mapping id info into (k + i) b = some b' ∧
          buffers'[i]? = some b' := by
  induction buffers generalizing k with
  | nil => exact ⟨[], rfl, rfl, fun i b found => nomatch found⟩
  | cons first rest ih =>
    obtain ⟨b, here⟩ := each 0 first rfl
    obtain ⟨later, run, length, points⟩ := @ih (k + 1) fun i b found => by
      rw [Nat.add_assoc, Nat.add_comm 1]
      exact each (i + 1) b found
    refine ⟨b :: later, ?_, by rw [List.length_cons, length, List.length_cons], fun i c found => ?_⟩
    · rw [quantizeInput, show quantizeBuffer numbers readAttribute indices mapping id info into k first = some b from here,
        Option.bind_some, run]
      rfl
    · cases i with
      | zero =>
        cases found
        exact ⟨b, here, rfl⟩
      | succ i =>
        rw [Nat.add_comm i, ← Nat.add_assoc, Nat.add_comm 1]
        exact points i c found

structure Sized (destinations : Attributes) (points : Nat) (buffers : List Buffer) : Prop where
  count : buffers.length = destinations.length
  points : ∀ (k : Nat) d b, destinations[k]? = some d → buffers[k]? = some b → b.length = stored d * points

theorem quantizeInputSpec {readAttribute : Location → Option Buffer} {indices mapping id info into buffers}
    (within : Within readAttribute indices id info into) (plain : ∀ d ∈ mapping.destination.tail, Plain d)
    (sized : Sized mapping.destination.tail indices.length buffers) :
    ∃ buffers', quantizeInput numbers readAttribute indices mapping id info into 0 buffers = some buffers' ∧
      Sized mapping.destination.tail indices.length buffers' ∧
      ∀ (k : Nat) d, mapping.destination.tail[k]? = some d → ∀ j (inside : j < indices.length),
        pointAt d buffers' k j =
          if indices[j].1 = id then
            (written numbers readAttribute mapping info into k indices[j].2).getD (pointAt d buffers k j)
          else pointAt d buffers k j := by
  have each : ∀ (k : Nat) d b, mapping.destination.tail[k]? = some d → buffers[k]? = some b → ∃ b',
      quantizeBuffer numbers readAttribute indices mapping id info into (0 + k) b = some b' ∧
      b'.length = stored d * indices.length ∧ ∀ j (inside : j < indices.length), block (stored d) b' j =
        if indices[j].1 = id then
          (written numbers readAttribute mapping info into k indices[j].2).getD (block (stored d) b j)
        else block (stored d) b j := by
    intro k d b destination found
    rw [Nat.zero_add]
    refine quantizeBufferSpec numbers within ?_ (plain d (List.mem_of_getElem? destination))
      (sized.points k d b destination found)
    rw [← List.getElem?_tail]
    exact destination
  have there : ∀ (k : Nat) b, buffers[k]? = some b → ∃ d, mapping.destination.tail[k]? = some d := by
    intro k b found
    obtain ⟨bound, _⟩ := List.getElem?_eq_some_iff.mp found
    exact ⟨_, List.getElem?_eq_getElem (sized.count ▸ bound)⟩
  obtain ⟨buffers', run, length, points⟩ := @quantizeInputEach _ numbers readAttribute indices mapping id info into 0
    buffers fun k b found => by
      obtain ⟨d, destination⟩ := there k b found
      obtain ⟨b', ran, _⟩ := each k d b destination found
      exact ⟨b', ran⟩
  have result : ∀ (k : Nat) d, mapping.destination.tail[k]? = some d → ∃ b b', buffers[k]? = some b ∧
      buffers'[k]? = some b' ∧ b'.length = stored d * indices.length ∧ ∀ j (inside : j < indices.length),
        block (stored d) b' j = if indices[j].1 = id then
          (written numbers readAttribute mapping info into k indices[j].2).getD (block (stored d) b j)
        else block (stored d) b j := by
    intro k d destination
    obtain ⟨bound, _⟩ := List.getElem?_eq_some_iff.mp destination
    rw [← sized.count] at bound
    have found : buffers[k]? = some buffers[k] := List.getElem?_eq_getElem bound
    obtain ⟨b', ran, still, blocks⟩ := each k d _ destination found
    obtain ⟨b'', ran', here⟩ := points k _ found
    cases ran.symm.trans ran'
    exact ⟨_, b', found, here, still, blocks⟩
  refine ⟨buffers', run, ⟨length.trans sized.count, fun k d b destination found => ?_⟩, fun k d destination j inside => ?_⟩
  · obtain ⟨_, b', _, here, still, _⟩ := result k d destination
    cases found.symm.trans here
    exact still
  · obtain ⟨b, b', before, after, _, blocks⟩ := result k d destination
    unfold pointAt
    rw [List.getD_eq_getElem?_getD, List.getD_eq_getElem?_getD, before, after, Option.getD_some, Option.getD_some]
    exact blocks j inside

-- What the unit of a point writes for it.
def writtenFor (readAttribute : Location → Option Buffer) (job : Job) (mapping : LodMapping) (k : Nat)
    (index : InputId × Nat) : Option (List Nat) :=
  (job.info index.1).bind fun info => (mapping.source.find? (·.1 = info.attributesId)).bind fun s =>
    written numbers readAttribute mapping info s.2 k index.2

def Resolved (readAttribute : Location → Option Buffer) (job : Job) (indices : List (InputId × Nat)) (mapping : LodMapping)
    (id : InputId) : Prop :=
  ∃ info s, job.info id = some info ∧ mapping.source.find? (·.1 = info.attributesId) = some s ∧
    Within readAttribute indices id info s.2

theorem quantizeNextSpec {readAttribute : Location → Option Buffer} {job mapping id indices buffers}
    (resolved : Resolved readAttribute job indices mapping id) (plain : ∀ d ∈ mapping.destination.tail, Plain d)
    (sized : Sized mapping.destination.tail indices.length buffers) :
    ∃ buffers', quantizeNext numbers readAttribute job indices mapping buffers id = some buffers' ∧
      Sized mapping.destination.tail indices.length buffers' ∧
      ∀ (k : Nat) d, mapping.destination.tail[k]? = some d → ∀ j (inside : j < indices.length), pointAt d buffers' k j =
        if indices[j].1 = id then
          (writtenFor numbers readAttribute job mapping k indices[j]).getD (pointAt d buffers k j)
        else pointAt d buffers k j := by
  obtain ⟨info, ⟨s, into⟩, known, found, within⟩ := resolved
  obtain ⟨buffers', run, still, points⟩ := quantizeInputSpec numbers within plain sized
  refine ⟨buffers', ?_, still, fun k d destination j inside => ?_⟩
  · unfold quantizeNext
    rw [known]
    dsimp only
    rw [found]
    exact run
  · rw [points k d destination j inside]
    split
    · rename_i own
      rw [writtenFor, own, known, Option.bind_some, found, Option.bind_some]
    · rfl

theorem getDTwice {α : Type} (a : Option α) (b : α) : a.getD (a.getD b) = a.getD b := by
  cases a <;> rfl

theorem quantizeFold {readAttribute : Location → Option Buffer} {job mapping indices} (ids : List InputId) {buffers}
    (resolved : ∀ id ∈ ids, Resolved readAttribute job indices mapping id)
    (plain : ∀ d ∈ mapping.destination.tail, Plain d) (sized : Sized mapping.destination.tail indices.length buffers) :
    ∃ buffers', ids.foldlM (quantizeNext numbers readAttribute job indices mapping) buffers = some buffers' ∧
      Sized mapping.destination.tail indices.length buffers' ∧
      ∀ (k : Nat) d, mapping.destination.tail[k]? = some d → ∀ j (inside : j < indices.length), pointAt d buffers' k j =
        if indices[j].1 ∈ ids then
          (writtenFor numbers readAttribute job mapping k indices[j]).getD (pointAt d buffers k j)
        else pointAt d buffers k j := by
  induction ids generalizing buffers with
  | nil => exact ⟨buffers, rfl, sized, fun k d destination j inside => by simp⟩
  | cons id rest ih =>
    obtain ⟨here, others⟩ := List.forall_mem_cons.mp resolved
    obtain ⟨next, run, still, points⟩ := quantizeNextSpec numbers here plain sized
    obtain ⟨final, all, last, later⟩ := ih others still
    refine ⟨final, ?_, last, fun k d destination j inside => ?_⟩
    · rw [List.foldlM_cons, run]
      exact all
    · rw [later k d destination j inside, points k d destination j inside]
      by_cases own : indices[j].1 = id
      · rw [if_pos own, if_pos (List.mem_cons.mpr (Or.inl own))]
        split
        · exact getDTwice _ _
        · rfl
      · rw [if_neg own]
        by_cases there : indices[j].1 ∈ rest
        · rw [if_pos there, if_pos (List.mem_cons.mpr (Or.inr there))]
        · rw [if_neg there, if_neg fun mem => (List.mem_cons.mp mem).elim own there]

theorem quantizeSpec {readAttribute : Location → Option Buffer} {job mapping indices buffers}
    (resolved : ∀ index ∈ indices, Resolved readAttribute job indices mapping index.1)
    (plain : ∀ d ∈ mapping.destination.tail, Plain d) (sized : Sized mapping.destination.tail indices.length buffers) :
    ∃ buffers', quantizeAttributes numbers readAttribute job indices mapping buffers = some buffers' ∧
      ∀ (k : Nat) d, mapping.destination.tail[k]? = some d → ∀ j (inside : j < indices.length), pointAt d buffers' k j =
        (writtenFor numbers readAttribute job mapping k indices[j]).getD (pointAt d buffers k j) := by
  have member : ∀ id, id ∈ ((indices.map Prod.fst).insertionSort idLe).eraseDups ↔ ∃ index ∈ indices, index.1 = id := by
    intro id
    rw [List.mem_eraseDups, (List.perm_insertionSort idLe _).mem_iff, List.mem_map]
  obtain ⟨final, run, _, points⟩ := quantizeFold numbers _ (fun id mem => by
      obtain ⟨index, here, rfl⟩ := (member id).mp mem
      exact resolved index here) plain sized
  refine ⟨final, run, fun k d destination j inside => ?_⟩
  rw [points k d destination j inside, if_pos ((member _).mpr ⟨indices[j], List.getElem_mem inside, rfl⟩)]

/-! ## The merged unit -/

theorem lastMap (first : Entry) (rest : List Entry) :
    ((first :: rest).map Entry.absolute).getLastD 0 = ((first :: rest).getLastD first).absolute := by
  rw [List.getLastD_eq_getLast?, List.getLastD_eq_getLast?, List.getLast?_map,
    List.getLast?_eq_some_getLast (List.cons_ne_nil first rest)]
  rfl

theorem inputSource {codesOf job e} (mem : e ∈ sourceEntries codesOf job.collection.data 0) :
    ∃ p ∈ job.collection.data, inputOf job e = p.inputId := by
  obtain ⟨i, p, found, t, _, rfl⟩ := sourceMem.mp mem
  refine ⟨p, List.mem_of_getElem? found, ?_⟩
  unfold inputOf
  dsimp only
  rw [Nat.zero_add, found]
  rfl

theorem infoMem {job : Job} {id info} (known : job.info id = some info) : ∃ source ∈ job.sources, source.2 = info := by
  obtain ⟨source, found, same⟩ := Option.map_eq_some_iff.mp known
  exact ⟨source, List.mem_of_find?_eq_some found, same⟩

theorem sortedIdsMem {ids : List Nat} {id : Nat} : id ∈ sortedIds ids ↔ id ∈ ids := by
  unfold sortedIds
  rw [List.mem_eraseDups, (sortByPerm _ _).mem_iff]

def attributeIds (job : Job) : List Nat := job.sources.map (·.2.attributesId)

theorem infoResolved {configs job configs' mapping id info} (mapped : Mapped configs (attributeIds job) configs' mapping)
    (known : job.info id = some info) : mapping.source.find? (·.1 = info.attributesId) = some (info.attributesId,
      mapping.destination.map fun a => createAttributeSourceLodInto a.name (configs'.getD info.attributesId [])) := by
  obtain ⟨source, mem, rfl⟩ := infoMem known
  have listed : source.2.attributesId ∈ sortedIds (attributeIds job) :=
    sortedIdsMem.mpr (List.mem_map.mpr ⟨source, mem, rfl⟩)
  rw [mapped.source]
  generalize source.2.attributesId = id at listed ⊢
  generalize sortedIds (attributeIds job) = ids at listed
  induction ids with
  | nil => cases listed
  | cons s rest ih =>
    rw [List.map_cons]
    by_cases same : s = id
    · rw [List.find?_cons_of_pos (by simpa using same), same]
    · rw [List.find?_cons_of_neg (by simpa using same)]
      exact ih ((List.mem_cons.mp listed).resolve_left (Ne.symm same))

structure Produced (readAttribute : Location → Option Buffer) (configs : Configs) (job : Job) (order : List Entry)
    (configs' : Configs) (mapping : LodMapping) (merged : Merged) : Prop where
  mapped : Mapped configs (attributeIds job) configs' mapping
  points : merged.points = sortedUnit job.newId (order.map Entry.absolute)
  id : merged.attributesId = mapping.destinationId
  buffers : ∀ (k : Nat) d, mapping.destination[k + 1]? = some d → ∀ (j : Nat) e, order[j]? = some e →
    pointAt d merged.buffers k j =
      (writtenFor numbers readAttribute job mapping k (inputOf job e, e.sourceIndex)).getD (List.replicate (stored d) 0)

-- A blob that can be read holds all the points of its unit.
def Whole (readAttribute : Location → Option Buffer) (configs : Configs) (job : Job) (codesOf : InputId → List Nat) : Prop :=
  ∀ p ∈ job.collection.data, ∀ info, job.info p.inputId = some info → ∀ (i : Nat) a blob,
    (configs.getD info.attributesId [])[i]? = some a → info.locations[i]?.bind readAttribute = some blob →
    blob.length = stored a * (codesOf p.inputId).length

-- The attributes are copied as they are stored, and no blob of the merged unit has 2³² bytes.
structure Fits (configs : Configs) (job : Job) (order : List Entry) : Prop where
  plain : ∀ id ∈ attributeIds job, ∀ a ∈ configs.getD id [], Plain a
  codes : (sortedUnit job.newId (order.map Entry.absolute)).header.format.total / 8 * order.length < 2 ^ 32
  attributes : ∀ a ∈ (unionOf configs (attributeIds job)).tail, sizeForFormat a * order.length < 2 ^ 32

section
variable {reads : Location → Option Points} {readAttribute : Location → Option Buffer} {codesOf : InputId → List Nat}
  {job : Job} {configs configs' : Configs} {mapping : LodMapping} {order : List Entry}

theorem destinationPlain (fits : Fits configs job order) (mapped : Mapped configs (attributeIds job) configs' mapping) :
    ∀ d ∈ mapping.destination.tail, Plain d := by
  intro d mem
  rw [mapped.tail] at mem
  obtain ⟨id, listed, here⟩ := unionMem (List.mem_of_mem_tail mem)
  exact fits.plain id listed d here

theorem infoWithin (refers : Refers reads codesOf job) (positioned : ∀ id ∈ attributeIds job, Positioned configs id)
    (whole : Whole readAttribute configs job codesOf) (fits : Fits configs job order)
    (mapped : Mapped configs (attributeIds job) configs' mapping) {p : Subset} (listed : p ∈ job.collection.data)
    {info : Info} (known : job.info p.inputId = some info) :
    Within readAttribute ((mergeOrder codesOf job.collection.data).map fun e => (inputOf job e, e.sourceIndex)) p.inputId
      info (mapping.destination.map fun a => createAttributeSourceLodInto a.name (configs'.getD info.attributesId [])) := by
  obtain ⟨unit, mem, same⟩ := infoMem known
  have id : info.attributesId ∈ attributeIds job := List.mem_map.mpr ⟨unit, mem, by rw [same]⟩
  obtain ⟨position, others, config, _⟩ := positioned _ id
  have kept : configs'.getD info.attributesId [] = configs.getD info.attributesId [] := by
    rw [List.getD_eq_getElem?_getD, List.getD_eq_getElem?_getD, mapped.kept _ _ config, config]
  intro k index source blob from_ read
  rw [kept] at from_
  have slot := Option.join_eq_some_iff.mp from_
  rw [List.getElem?_map] at slot
  obtain ⟨d, _, made⟩ := Option.map_eq_some_iff.mp slot
  obtain ⟨here, _⟩ := intoSome made
  refine ⟨fits.plain _ id source (List.mem_of_getElem? here), fun i turn own => ?_⟩
  obtain ⟨e, there, rfl⟩ := List.mem_map.mp turn
  obtain ⟨n, q, found', t, inside, rfl⟩ := sourceMem.mp ((sortByPerm _ _).mem_iff.mp there)
  have input : inputOf job ⟨(codesOf q.inputId).getD (q.offset + t) 0, 0 + n, q.offset + t⟩ = q.inputId := by
    unfold inputOf
    dsimp only
    rw [Nat.zero_add, found']
    rfl
  have within := refers.within q (List.mem_of_getElem? found')
  rw [show q.inputId = p.inputId from input.symm.trans own] at within
  rw [whole p listed info known index source blob here read, Nat.mul_comm]
  refine Nat.mul_le_mul_left _ ?_
  dsimp only
  omega

theorem mergeSpec (refers : Refers reads codesOf job) (positioned : ∀ id ∈ attributeIds job, Positioned configs id)
    (whole : Whole readAttribute configs job codesOf) (fits : Fits configs job (mergeOrder codesOf job.collection.data)) :
    ∃ configs' mapping merged, mergeWorker numbers reads readAttribute configs job = some (configs', merged) ∧
      Produced numbers readAttribute configs job (mergeOrder codesOf job.collection.data) configs' mapping merged := by
  obtain ⟨first, rest, sorted⟩ := List.exists_cons_of_ne_nil (orderSome refers)
  have some_ : sortedIds (attributeIds job) ≠ [] := by
    obtain ⟨p, mem, _⟩ := refers.some
    obtain ⟨info, _, known, _⟩ := refers.readable p mem
    obtain ⟨source, here, _⟩ := infoMem known
    exact List.ne_nil_of_mem (sortedIdsMem.mpr (List.mem_map.mpr ⟨source, here, rfl⟩))
  obtain ⟨configs', mapping, made, mapped⟩ := mappingSpec (mortonLod first.absolute ((first :: rest).getLastD first).absolute)
    some_ fun id mem => positioned id (sortedIdsMem.mp mem)
  let order := first :: rest
  let indices := order.map fun e => (inputOf job e, e.sourceIndex)
  let blank := mapping.destination.tail.map fun a => attributeBuffer a order.length
  have plain := destinationPlain fits mapped
  have filled : ∀ (k : Nat) d, mapping.destination.tail[k]? = some d →
      blank[k]? = some (List.replicate (stored d * order.length) 0) := by
    intro k d destination
    rw [List.getElem?_map, destination, Option.map_some, attributeBufferWhole]
    have mem := List.mem_of_getElem? destination
    rw [mapped.tail] at mem
    have small := fits.attributes d mem
    rw [sorted] at small
    exact small
  have sized : Sized mapping.destination.tail indices.length blank := by
    refine ⟨List.length_map _, fun k d b destination found => ?_⟩
    cases found.symm.trans (filled k d destination)
    rw [List.length_replicate, List.length_map]
  have resolved : ∀ index ∈ indices, Resolved readAttribute job indices mapping index.1 := by
    intro index mem
    obtain ⟨e, here, rfl⟩ := List.mem_map.mp mem
    rw [← show mergeOrder codesOf job.collection.data = order from sorted] at here
    obtain ⟨p, there, same⟩ := inputSource ((sortByPerm _ _).mem_iff.mp here)
    obtain ⟨info, _, known, _⟩ := refers.readable p there
    dsimp only
    rw [same]
    refine ⟨info, _, known, infoResolved mapped known, ?_⟩
    have within := infoWithin refers positioned whole fits mapped there known
    rw [show mergeOrder codesOf job.collection.data = order from sorted] at within
    exact within
  obtain ⟨buffers, run, points⟩ := quantizeSpec numbers resolved plain sized
  refine ⟨configs', mapping, ⟨sortedUnit job.newId (order.map Entry.absolute), mapping.destinationId, buffers⟩, ?_,
    mapped, by rw [sorted], rfl, fun k d destination j e found => ?_⟩
  · have codes : (typeFromLod (mortonLod first.absolute ((first :: rest).getLastD first).absolute)).total / 8 *
        (first :: rest).length < 2 ^ 32 := by
      have small := fits.codes
      rw [sorted, sortedUnit] at small
      dsimp only at small
      rw [lastMap] at small
      exact small
    unfold mergeWorker
    rw [readSpec refers fun p mem => mem]
    dsimp only
    rw [show sortBy Entry.absolute (sourceEntries codesOf job.collection.data 0) = first :: rest from sorted]
    dsimp only
    rw [show job.sources.map (·.2.attributesId) = attributeIds job from rfl, made]
    dsimp only
    rw [if_pos codes, run, Option.map_some]
    unfold sortedUnit
    dsimp only
    rw [lastMap, List.length_map, List.map_map]
    rfl
  · rw [sorted] at found
    obtain ⟨inside, same⟩ := List.getElem?_eq_some_iff.mp found
    rw [← List.getElem?_tail] at destination
    have there : j < indices.length := by
      rw [List.length_map]
      exact inside
    have index : indices[j] = (inputOf job e, e.sourceIndex) := by
      rw [List.getElem_map]
      exact same ▸ rfl
    have zeros : pointAt d blank k j = List.replicate (stored d) 0 := by
      unfold pointAt
      rw [List.getD_eq_getElem?_getD, filled k d destination, Option.getD_some, Buffers.blockReplicate inside]
    rw [points k d destination j there, index, zeros]

end

-- The attribute of that name in the unit of a point, and where its blob is.
def attributeOf (configs : Configs) (job : Job) (e : Entry) (name : List Char) : Option (Attribute × Location) :=
  (job.info (inputOf job e)).bind fun info =>
    (createAttributeSourceLodInto name (configs.getD info.attributesId [])).bind fun a =>
      info.locations[a.1]?.map fun location => (a.2, location)

def Same (source destination : Attribute) (x y : List Nat) : Prop :=
  stored source ≤ stored destination ∧ ∀ i < stored source,
    numbers.value (numberType destination) (y.getD i 0) = numbers.value (numberType source) (x.getD i 0)

structure Collapsed (configs : Configs) (job : Job) (codesOf : InputId → List Nat) (blobs : Location → Buffer)
    (configs' : Configs) (merged : Merged) (order : List Entry) : Prop where
  all : order.Perm (sourceEntries codesOf job.collection.data 0)
  sorted : order.Pairwise (Follows Entry.absolute Earlier)
  codes : merged.points.codes.map (fun c => upcast merged.points.header.format c merged.points.header.mortonMin) =
    order.map Entry.absolute
  count : merged.points.header.pointCount = order.length
  min : (order.map Entry.absolute).head? = some merged.points.header.mortonMin
  max : (order.map Entry.absolute).getLast? = some merged.points.header.mortonMax
  attributes : ∀ (j : Nat) e, order[j]? = some e → ∀ name, name ≠ xyz → ∀ a location,
    attributeOf configs job e name = some (a, location) → ∃ k d,
      createAttributeSourceLodInto name (configs'.getD merged.attributesId []) = some (k + 1, d) ∧
      Same numbers a d (block (stored a) (blobs location) e.sourceIndex) (pointAt d merged.buffers k j)

-- The destination has the numbers of the point; only zeros are kept where the blob cannot be read.
def Represented (source destination : Attribute) (readable : Bool) (point : List Nat) : Prop :=
  stored source ≤ stored destination ∧ ∀ i < stored source,
    if readable then ∃ m, numbers.value (numberType destination) m = numbers.value (numberType source) (point.getD i 0)
    else numbers.value (numberType destination) 0 = numbers.value (numberType source) (point.getD i 0)

theorem headSome {codes : List Nat} (some_ : codes ≠ []) : codes.head? = some (codes.headD 0) := by
  cases codes with
  | nil => exact absurd rfl some_
  | cons c rest => rfl

theorem lastSome {codes : List Nat} (some_ : codes ≠ []) : codes.getLast? = some (codes.getLastD 0) := by
  rw [List.getLastD_eq_getLast?, List.getLast?_eq_some_getLast some_]
  rfl

theorem zerosGet (n i : Nat) : (List.replicate n 0).getD i 0 = 0 := by
  rw [List.getD_eq_getElem?_getD, List.getElem?_replicate]
  split <;> rfl

theorem convertGet {source destination : Attribute} (plain : Plain source) (plain' : Plain destination) {point : List Nat}
    {i : Nat} (inside : i < stored source) (fits : stored source ≤ stored destination) :
    (convertPoint numbers source destination point).getD i 0 =
      numbers.cast (numberType source) (numberType destination) (point.getD i 0) := by
  unfold convertPoint
  rw [(plainCopied plain).2, (plainCopied plain').2, List.getD_eq_getElem?_getD, List.getElem?_map,
    List.getElem?_range (inside.trans_le fits), Option.map_some, Nat.min_eq_left fits, if_pos inside]
  rfl

theorem readSame {source destination : Attribute} (plain : Plain source) (plain' : Plain destination) (readable : Bool)
    (blob : Buffer) (at_ : Nat) : Same numbers source destination (block (stored source) blob at_)
      (((if readable then some blob else none).map fun blob =>
        convertPoint numbers source destination (block (stored source) blob at_)).getD
          (List.replicate (stored destination) 0)) ↔
      Represented numbers source destination readable (block (stored source) blob at_) := by
  refine and_congr_right fun fits => forall_congr' fun i => imp_congr_right fun inside => ?_
  cases readable with
  | false =>
    simp only [Bool.false_eq_true, if_false, Option.map_none, Option.getD_none]
    rw [zerosGet]
  | true =>
    simp only [if_true, Option.map_some, Option.getD_some]
    rw [convertGet numbers plain plain' inside fits]
    exact ⟨fun same => ⟨_, same⟩, numbers.exact _ _ _⟩

theorem destinationFound {configs : Configs} {ids : List Nat} {name : List Char} {id : Nat} {a : Attribute}
    (listed : id ∈ ids) (found : named name (configs.getD id []) = some a) : ∃ d, destinationOf configs ids name = some d := by
  refine Option.isSome_iff_exists.mp (List.findSome?_isSome_iff.mpr ⟨id, listed, ?_⟩)
  rw [found]
  rfl

theorem attributeSpec {configs job order configs' mapping merged e name a location}
    {readAttribute : Location → Option Buffer}
    (produced : Produced numbers readAttribute configs job order configs' mapping merged)
    (positioned : ∀ id ∈ attributeIds job, Positioned configs id) (other : name ≠ xyz)
    (found : attributeOf configs job e name = some (a, location)) :
    ∃ k d, createAttributeSourceLodInto name (configs'.getD merged.attributesId []) = some (k + 1, d) ∧
      destinationOf configs (sortedIds (attributeIds job)) name = some d ∧
      (∃ id ∈ attributeIds job, a ∈ configs.getD id []) ∧ d ∈ mapping.destination.tail ∧
      ∀ j : Nat, order[j]? = some e → pointAt d merged.buffers k j = ((readAttribute location).map fun blob =>
        convertPoint numbers a d (block (stored a) blob e.sourceIndex)).getD (List.replicate (stored d) 0) := by
  obtain ⟨info, known, next⟩ := Option.bind_eq_some_iff.mp found
  obtain ⟨⟨i, b⟩, into, last⟩ := Option.bind_eq_some_iff.mp next
  obtain ⟨l, there, same⟩ := Option.map_eq_some_iff.mp last
  cases same
  dsimp only at there
  have listed : info.attributesId ∈ attributeIds job := by
    obtain ⟨source, mem, rfl⟩ := infoMem known
    exact List.mem_map.mpr ⟨source, mem, rfl⟩
  obtain ⟨position, others, stored, _⟩ := positioned _ listed
  have kept : configs'.getD info.attributesId [] = configs.getD info.attributesId [] := by
    rw [List.getD_eq_getElem?_getD, List.getD_eq_getElem?_getD, produced.mapped.kept _ _ stored, stored]
  have own : named name (configs.getD info.attributesId []) = some b := by
    rw [← intoNamed, into]
    rfl
  obtain ⟨d, whole⟩ := destinationFound (sortedIdsMem.mpr listed) own
  have destination : configs'.getD merged.attributesId [] = mapping.destination := by
    rw [produced.id, List.getD_eq_getElem?_getD, produced.mapped.stored, Option.getD_some]
  obtain ⟨at_, slot⟩ := intoOf ((produced.mapped.named name other).trans whole)
  obtain ⟨here, label⟩ := intoSome slot
  obtain ⟨first, more, begins, head⟩ := produced.mapped.head
  cases at_ with
  | zero =>
    rw [begins] at here
    cases here
    exact absurd (label.symm.trans head) other
  | succ k =>
    refine ⟨k, d, destination ▸ slot, whole, ⟨_, listed, List.mem_of_getElem? (intoSome into).1⟩,
      List.mem_of_getElem? (List.getElem?_tail.trans here), fun j turn => ?_⟩
    rw [produced.buffers k d here j e turn, writtenFor, known, Option.bind_some,
      infoResolved produced.mapped known, Option.bind_some]
    unfold written
    rw [List.getElem?_map, here, Option.map_some, label, kept, into, Option.join_some]
    dsimp only
    rw [there]
    rfl

theorem producedCollapsed {reads codesOf job configs configs' mapping merged} {blobs : Location → Buffer}
    {readable : Location → Bool} (refers : Refers reads codesOf job)
    (positioned : ∀ id ∈ attributeIds job, Positioned configs id)
    (fits : Fits configs job (mergeOrder codesOf job.collection.data))
    (produced : Produced numbers (fun l => if readable l then some (blobs l) else none) configs job
      (mergeOrder codesOf job.collection.data) configs' mapping merged) :
    (∃ order, Collapsed numbers configs job codesOf blobs configs' merged order) ↔
      ∀ e ∈ sourceEntries codesOf job.collection.data 0, ∀ name, name ≠ xyz → ∀ a location,
        attributeOf configs job e name = some (a, location) → ∀ d,
        destinationOf configs (sortedIds (attributeIds job)) name = some d →
        Represented numbers a d (readable location) (block (stored a) (blobs location) e.sourceIndex) := by
  constructor
  · rintro ⟨order, collapsed⟩ e mem name other a location found d whole
    have same := sortByUnique (fun a b first second => by unfold Earlier at first second; omega)
      (sourceEarlier codesOf job.collection.data 0) collapsed.all collapsed.sorted
    obtain ⟨j, turn⟩ := List.mem_iff_getElem?.mp (collapsed.all.mem_iff.mpr mem)
    obtain ⟨k, d', slot, whole', ⟨id, listed, here⟩, there, point⟩ := attributeSpec numbers produced positioned other found
    obtain ⟨k', d'', slot', kept⟩ := collapsed.attributes j e turn name other a location found
    cases whole.symm.trans whole'
    cases slot.symm.trans slot'
    rw [show order = mergeOrder codesOf job.collection.data from same] at turn
    rw [point j turn] at kept
    exact (readSame numbers (fits.plain id listed a here) (destinationPlain fits produced.mapped d there) _ _ _).mp kept
  · intro represented
    have some_ := orderSome refers
    have listed : (mergeOrder codesOf job.collection.data).map Entry.absolute ≠ [] := fun nil => some_ (List.map_eq_nil_iff.mp nil)
    refine ⟨mergeOrder codesOf job.collection.data, sortByPerm _ _, sortByFollows (sourceEarlier _ _ _), ?_, ?_, ?_, ?_,
      fun j e turn name other a location found => ?_⟩
    · rw [produced.points]
      unfold sortedUnit
      dsimp only
      rw [List.map_map]
      exact (List.map_congr_left (@unitUpcast job.newId _ (orderSorted _ _) (orderWidth refers))).trans (List.map_id _)
    · rw [produced.points]
      exact List.length_map _
    · rw [produced.points]
      exact headSome listed
    · rw [produced.points]
      exact lastSome listed
    · obtain ⟨k, d, slot, whole, ⟨id, listed', here⟩, there, point⟩ := attributeSpec numbers produced positioned other found
      refine ⟨k, d, slot, ?_⟩
      rw [point j turn]
      refine (readSame numbers (fits.plain id listed' a here) (destinationPlain fits produced.mapped d there) _ _ _).mpr
        (represented e ?_ name other a location found d whole)
      exact (sortByPerm _ _).mem_iff.mp (List.mem_of_getElem? turn)

theorem mergedExactly {reads codesOf job configs} (blobs : Location → Buffer) (readable : Location → Bool)
    (refers : Refers reads codesOf job) (positioned : ∀ id ∈ attributeIds job, Positioned configs id)
    (whole : Whole (fun l => if readable l then some (blobs l) else none) configs job codesOf)
    (fits : Fits configs job (mergeOrder codesOf job.collection.data)) :
    ∃ configs' merged, mergeWorker numbers reads (fun l => if readable l then some (blobs l) else none) configs job =
        some (configs', merged) ∧
      ((∃ order, Collapsed numbers configs job codesOf blobs configs' merged order) ↔
        ∀ e ∈ sourceEntries codesOf job.collection.data 0, ∀ name, name ≠ xyz → ∀ a location,
          attributeOf configs job e name = some (a, location) → ∀ d,
          destinationOf configs (sortedIds (attributeIds job)) name = some d →
          Represented numbers a d (readable location) (block (stored a) (blobs location) e.sourceIndex)) := by
  obtain ⟨configs', mapping, merged, run, produced⟩ :=
    mergeSpec numbers refers positioned whole fits
  exact ⟨configs', merged, run, producedCollapsed numbers refers positioned fits produced⟩

def signed : DewType → Bool
  | .i8 | .i16 | .i32 | .i64 => true
  | _ => false

def integerValue (t : DewType) (n : Nat) : Int :=
  if signed t then Int.bmod n (2 ^ width t) else ((n % 2 ^ width t : Nat) : Int)

-- Two's complement; the floating types are not treated.
def integers : Numbers Int where
  value := integerValue
  cast source destination n := (integerValue source n % (2 ^ width destination : Nat)).toNat
  exact source destination n representable := by
    obtain ⟨m, same⟩ := representable
    have positive : ((2 ^ width destination : Nat) : Int) ≠ 0 := Int.natCast_ne_zero.mpr (Nat.two_pow_pos _).ne'
    rw [← same]
    unfold integerValue
    split
    · rw [Int.toNat_of_nonneg (Int.emod_nonneg _ positive), Int.emod_bmod, Int.bmod_bmod]
    · rw [← Int.natCast_mod, Int.toNat_natCast, Nat.mod_mod, Nat.mod_mod]

def intensity : List Char := ['i', 'n', 't', 'e', 'n', 's', 'i', 't', 'y']

def pairConfigs : Configs := [[⟨xyz, .m32, 1⟩, ⟨intensity, .u8, 1⟩], [⟨xyz, .m32, 1⟩, ⟨intensity, .u16, 1⟩]]

def pairCodes (id : InputId) : List Nat := [id.data, 2]

-- Two units of two points, whose codes interleave and share the last one.
def pairJob : Job :=
  ⟨⟨2, 0⟩, ⟨4, 0, 2, 0, [⟨⟨0, 0⟩, 0, 2⟩, ⟨⟨1, 0⟩, 0, 2⟩]⟩,
    [(⟨0, 0⟩, ⟨0, [⟨0, 0, 1⟩, ⟨0, 1, 1⟩]⟩), (⟨1, 0⟩, ⟨1, [⟨0, 2, 1⟩, ⟨0, 3, 1⟩]⟩)]⟩

def pairReads (location : Location) : Option Points :=
  if location.offset = 0 then some (sortedUnit ⟨0, 0⟩ [0, 2]) else some (sortedUnit ⟨1, 0⟩ [1, 2])

-- The intensities; those of the second unit are the last ones.
def pairBlobs (last : Nat) (location : Location) : Buffer := if location.offset = 1 then [7, 9] else [200, last]

theorem pairEach : ∀ p ∈ pairJob.collection.data, p = ⟨⟨0, 0⟩, 0, 2⟩ ∨ p = ⟨⟨1, 0⟩, 0, 2⟩ := by decide

theorem pairRefers : Refers pairReads pairCodes pairJob := by
  refine ⟨fun p mem => ?_, fun p mem => ?_, fun p mem => ?_, fun p mem => ?_, fun p mem => ?_, by decide⟩
  · rcases pairEach p mem with rfl | rfl <;> decide
  · rcases pairEach p mem with rfl | rfl <;> decide
  · rcases pairEach p mem with rfl | rfl <;> decide
  · rcases pairEach p mem with rfl | rfl <;> decide
  · rcases pairEach p mem with rfl | rfl
    · exact ⟨_, ⟨0, 0, 1⟩, rfl, rfl, by decide⟩
    · exact ⟨_, ⟨0, 2, 1⟩, rfl, rfl, by decide⟩

theorem pairIds : ∀ id ∈ attributeIds pairJob, id = 0 ∨ id = 1 := by decide

theorem pairPositioned : ∀ id ∈ attributeIds pairJob, Positioned pairConfigs id := by
  intro id mem
  rcases pairIds id mem with rfl | rfl <;> exact ⟨_, _, rfl, rfl⟩

theorem pairWhole (last : Nat) :
    Whole (fun l => if true then some (pairBlobs last l) else none) pairConfigs pairJob pairCodes := by
  intro p mem info known i a blob here read
  have two : i < 2 := by
    obtain ⟨bound, _⟩ := List.getElem?_eq_some_iff.mp here
    rcases pairEach p mem with rfl | rfl <;> cases known <;> exact bound
  rcases pairEach p mem with rfl | rfl
  all_goals
    cases known
    obtain rfl | rfl : i = 0 ∨ i = 1 := by omega
    · cases here
      cases read
      rfl
    · cases here
      cases read
      rfl

theorem pairFits : Fits pairConfigs pairJob (mergeOrder pairCodes pairJob.collection.data) := by
  refine ⟨fun id mem => ?_, by decide, by decide⟩
  rcases pairIds id mem with rfl | rfl <;> decide

theorem pairAttribute {e : Entry} {name : List Char} {a : Attribute} {location : Location} (other : name ≠ xyz)
    (found : attributeOf pairConfigs pairJob e name = some (a, location)) : name = intensity := by
  obtain ⟨info, known, next⟩ := Option.bind_eq_some_iff.mp found
  obtain ⟨source, mem, same⟩ := infoMem known
  obtain ⟨⟨i, b⟩, into, _⟩ := Option.bind_eq_some_iff.mp next
  obtain ⟨here, label⟩ := intoSome into
  have both : ∀ id ∈ attributeIds pairJob, ∀ c ∈ pairConfigs.getD id [], c.name = xyz ∨ c.name = intensity := by decide
  rcases both _ (List.mem_map.mpr ⟨source, mem, by rw [same]⟩) b (List.mem_of_getElem? here) with position | own
  · exact absurd (label.symm.trans position) other
  · exact label.symm.trans own

-- All intensities can be had in the format of the first unit.
theorem pairMerged : ∃ configs' merged,
    mergeWorker integers pairReads (fun l => if true then some (pairBlobs 201 l) else none) pairConfigs pairJob =
      some (configs', merged) ∧
    ∃ order, Collapsed integers pairConfigs pairJob pairCodes (pairBlobs 201) configs' merged order := by
  obtain ⟨configs', merged, run, collapsed⟩ := mergedExactly integers (pairBlobs 201) (fun _ => true) pairRefers
    pairPositioned (pairWhole 201) pairFits
  refine ⟨configs', merged, run, collapsed.mpr fun e mem name other a location found d whole => ?_⟩
  cases pairAttribute other found
  have entries : ∀ e ∈ sourceEntries pairCodes pairJob.collection.data 0, ∀ a ∈ attributeOf pairConfigs pairJob e intensity,
      ∀ d ∈ destinationOf pairConfigs (sortedIds (attributeIds pairJob)) intensity, stored a.1 ≤ stored d ∧ stored a.1 = 1 ∧
        integerValue (numberType d) ((block 1 (pairBlobs 201 a.2) e.sourceIndex).getD 0 0) =
          integerValue (numberType a.1) ((block 1 (pairBlobs 201 a.2) e.sourceIndex).getD 0 0) := by decide
  obtain ⟨fits, one, same⟩ := entries e mem _ found d whole
  dsimp only at fits one same
  refine ⟨fits, fun i inside => ?_⟩
  obtain rfl : i = 0 := by omega
  rw [if_pos rfl, one]
  exact ⟨_, same⟩

theorem wideIntensityLost : ∃ configs' merged,
    mergeWorker integers pairReads (fun l => some (pairBlobs 300 l)) pairConfigs pairJob = some (configs', merged) ∧
      ¬∃ order, Collapsed integers pairConfigs pairJob pairCodes (pairBlobs 300) configs' merged order := by
  obtain ⟨configs', mapping, merged, run, produced⟩ :=
    mergeSpec integers pairRefers pairPositioned (pairWhole 300) pairFits
  refine ⟨configs', merged, run, fun collapsed => ?_⟩
  have represented := (@producedCollapsed _ integers _ _ _ _ _ _ _ (pairBlobs 300) (fun _ => true) pairRefers
    pairPositioned pairFits produced).mp collapsed ⟨2, 1, 1⟩ (by decide) intensity (by decide) ⟨intensity, .u16, 1⟩
    ⟨0, 3, 1⟩ (by decide) ⟨intensity, .u8, 1⟩ (by decide)
  obtain ⟨m, same⟩ := represented.2 0 (by decide)
  have low : m % 256 < 256 := Nat.mod_lt _ (by decide)
  have wide : ((m % 256 : Nat) : Int) = 300 := same
  omega

end Dewfall.TreeMerge
