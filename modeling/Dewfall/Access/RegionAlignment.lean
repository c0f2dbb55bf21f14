import Dewfall.Access.RegionRequest
import Dewfall.General.Sequence

/-! What a completed region request has delivered. The points of a node are those its unit's blobs hold,
with a value for each asked attribute its configuration has; a unit without the attribute has zeros. Whether
the walk selects the right nodes is not treated. -/
namespace Dewfall.RegionAlignment
open General.Compaction General.Sequence StorageMap RegionRequest

structure Point where
  position : Bytes
  -- By asked attribute; `none` where the unit has no such attribute.
  attributes : List (Option (Format × Bytes))
  deriving DecidableEq, Repr

variable {Origin : Type} (dec : Decoder Origin) (ds : Dataset) (job : Job)

-- A unit's attribute, as far as the subset's values can be had: slot 0 is not a plain array.
def unitAttribute (map : InputStorageMap) (node : RegionNode) (walk : Nat) (asked : List Char × Nat) :
    Option (Option (Format × Bytes)) :=
  match getAttributeIndex ds.attributesConfigs node.attributesId asked.1 with
  | none => some none
  | some (index, format) =>
    match map.location node.inputId index with
    | none => none
    | some location =>
      if index = 0 ∨ location.size = 0 then none
      else
        match ds.read ⟨walk, asked.2 + 1⟩ location with
        | .error _ => none
        | .ok data =>
          if (node.offsetInSubset + node.pointCount) * sizeForFormat format ≤ data.length then some (some (format, data))
          else none

def value (j : Nat) : Option (Format × Bytes) → Option (Format × Bytes)
  | none => none
  | some (format, data) => some (format, element (sizeForFormat format) data j)

def pointAt (positions : List Bytes) (attributes : List (Option (Format × Bytes))) (offset j : Nat) : Point :=
  ⟨positions.getD j [], attributes.map (value (offset + j))⟩

structure Unit (Origin : Type) where
  origin : Origin
  positions : List Bytes

def unitPositions (map : InputStorageMap) (node : RegionNode) (walk : Nat) : Option (Unit Origin) :=
  match map.location node.inputId 0 with
  | none => none
  | some location =>
    if location.size = 0 then none
    else
      match ds.read ⟨walk, 0⟩ location with
      | .error _ => none
      | .ok data =>
        match deserializePoints dec data with
        | .error _ => none
        | .ok (header, points) =>
          if header.pointCount < node.offsetInSubset + node.pointCount then none
          else
            match decodePositions dec job.positionFormat header points node.offsetInSubset node.pointCount with
            | .ok (some positions) => some ⟨dec.origin header, positions⟩
            | _ => none

def clips (node : RegionNode) : Bool := job.clipPoint && !job.wholeDataset && !node.fullyInside

-- The points a selected node stands for, where all its blobs can be read and hold its subset.
def selected (n : RegionNode × Nat) : Option (List Point) :=
  if n.1.pointCount = 0 then some []
  else
    match ds.tree n.1.treeId with
    | none => none
    | some map =>
      match unitPositions dec ds job map n.1 n.2 with
      | none => none
      | some unit =>
        match job.attributeNames.zipIdx.mapM (unitAttribute ds map n.1 n.2) with
        | none => none
        | some attributes =>
          let points := (List.range n.1.pointCount).map (pointAt unit.positions attributes n.1.offsetInSubset)
          some (if clips job n.1 then points.filter fun p => dec.inside job.positionFormat unit.origin p.position
            else points)

def bytesAt (format : Option Format) (a : Nat) (p : Point) : Bytes :=
  match p.attributes[a]? with
  | some (some v) => v.2
  | _ => List.replicate (stride format) 0

def tiles (first : Nat) : List (RegionNode × Nat) → List (List Point) → List (RegionNode × Nat × Nat)
  | n :: nodes, part :: parts =>
    if part = [] then tiles first nodes parts else (n.1, first, part.length) :: tiles (first + part.length) nodes parts
  | _, _ => []

structure Delivered (nodes : List (RegionNode × Nat)) (parts : List (List Point)) (r : Result Origin) : Prop where
  count : r.pointCount = parts.flatten.length
  positions : r.positions.data = parts.flatten.flatMap Point.position
  names : r.attributes.map Buffer.name = job.attributeNames
  sizes : r.positions.data.length = r.pointCount * positionStride job.positionFormat ∧
    ∀ buffer ∈ r.attributes, buffer.data.length = r.pointCount * stride buffer.format
  values : ∀ (a : Nat) (buffer : Buffer), r.attributes[a]? = some buffer →
    buffer.data = parts.flatten.flatMap (bytesAt buffer.format a) ∧
    ∀ p ∈ parts.flatten, ∀ v : Format × Bytes, p.attributes[a]? = some (some v) → buffer.format = some v.1
  nodes : r.nodes.map (fun n => (n.node, n.firstPoint, n.pointCount)) = tiles 0 nodes parts

-- The result is made of the points of all selected nodes, in walk order.
def Aligned (nodes : List RegionNode) (r : Result Origin) : Prop :=
  ∃ parts, List.Forall₂ (fun n part => selected dec ds job n = some part) nodes.zipIdx parts ∧
    Delivered job nodes.zipIdx parts r

-- What a selected node with points needs where its tree is resident.
structure Served (nodes : List RegionNode) (n : RegionNode × Nat) (map : InputStorageMap) : Prop where
  slot : ∀ location, map.location n.1.inputId 0 = some location → location.size ≠ 0
  subset : ∀ location data header points, map.location n.1.inputId 0 = some location →
    ds.read ⟨n.2, 0⟩ location = .ok data → deserializePoints dec data = .ok (header, points) →
    n.1.offsetInSubset + n.1.pointCount ≤ header.pointCount
  attributes : ∀ (a : Nat) name index format, job.attributeNames[a]? = some name →
    getAttributeIndex ds.attributesConfigs n.1.attributesId name = some (index, format) →
    index ≠ 0 ∧ ∃ location data, map.location n.1.inputId index = some location ∧ location.size ≠ 0 ∧
      ds.read ⟨n.2, a + 1⟩ location = .ok data ∧
      (n.1.offsetInSubset + n.1.pointCount) * sizeForFormat format ≤ data.length
  -- A node whose points are all clipped may have any format.
  formats : selected dec ds job n ≠ some [] → ∀ name ∈ job.attributeNames, ∀ index format,
    getAttributeIndex ds.attributesConfigs n.1.attributesId name = some (index, format) →
    resolveFormat ds nodes name = some format

def Readable (nodes : List RegionNode) : Prop :=
  ∀ n ∈ nodes.zipIdx, n.1.pointCount ≠ 0 → ∃ map, ds.tree n.1.treeId = some map ∧ Served dec ds job nodes n map

/-! ## Lists -/

theorem batchesFlatten {α : Type} {size : Nat} (positive : 0 < size) (fuel : Nat) (l : List α)
    (enough : l.length ≤ fuel) : (batches size fuel l).flatten = l := by
  induction fuel generalizing l with
  | zero => exact (List.eq_nil_of_length_eq_zero (Nat.le_zero.mp enough)).symm
  | succ fuel ih =>
    unfold batches
    split
    · rename_i none_
      exact (List.isEmpty_iff.mp none_).symm
    · rename_i some_
      have long : 0 < l.length := List.length_pos_iff.mpr fun none_ => some_ (List.isEmpty_iff.mpr none_)
      rw [List.flatten_cons, ih, List.take_append_drop]
      rw [List.length_drop]
      omega

theorem elementLength {size : Nat} {data : Bytes} {j n : Nat} (fits : n * size ≤ data.length) (inside : j < n) :
    (element size data j).length = size := by
  have bound : (j + 1) * size ≤ n * size := Nat.mul_le_mul_right size inside
  rw [Nat.succ_mul] at bound
  rw [element, List.length_take, List.length_drop]
  omega

theorem flatMapLength {α β : Type} {f : α → List β} {size : Nat} {l : List α} (each : ∀ a ∈ l, (f a).length = size) :
    (l.flatMap f).length = l.length * size := by
  induction l with
  | nil => simp
  | cons a rest ih =>
    rw [List.flatMap_cons, List.length_append, each a (List.mem_cons_self ..),
      ih fun b mem => each b (List.mem_cons_of_mem a mem), List.length_cons, Nat.succ_mul, Nat.add_comm]

/-! ## Clipping -/

def insideAt (inside : Bytes → Bool) (positions : List Bytes) (j : Nat) : Bool := (positions[j]?.map inside).getD false

-- A span is compacted by the places the positions are.
def SpanCompacted (count : Nat) (kept : List Nat) (i : Nat) : Option (List Bytes) → Option (List Bytes) → Prop
  | none, none => True
  | some original, some xs => original.length = count ∧ Compacted original kept i xs
  | _, _ => False

theorem spanSkipped {count i : Nat} {kept : List Nat} {original xs : Option (List Bytes)}
    (before : SpanCompacted count kept i original xs) : SpanCompacted count kept (i + 1) original xs := by
  cases original with
  | none => cases xs <;> exact before
  | some original =>
    cases xs with
    | none => exact before
    | some xs => exact ⟨before.1, compactedSkip before.2⟩

theorem spanMoved {count i : Nat} {kept : List Nat} {original xs : Option (List Bytes)} (inside : i < count)
    (before : SpanCompacted count kept i original xs) :
    SpanCompacted count (kept ++ [i]) (i + 1) original (moveSpan i kept.length xs) := by
  cases original with
  | none => cases xs <;> exact before
  | some original =>
    cases xs with
    | none => exact before
    | some xs => exact ⟨before.1, compactedMove before.2 (before.1 ▸ inside)⟩

theorem moveSpanSelf (i : Nat) (xs : Option (List Bytes)) : moveSpan i i xs = xs := by
  cases xs with
  | none => rfl
  | some xs => exact congrArg some moveSelf

theorem clipToBoxCompacts {inside : Bytes → Bool} {original positions : List Bytes}
    {originals spans : List (Option (List Bytes))} (left i : Nat) {kept : List Nat}
    (whole : i + left = original.length) (before : Compacted original kept i positions)
    (chosen : kept = (List.range i).filter (insideAt inside original))
    (spansBefore : List.Forall₂ (SpanCompacted original.length kept i) originals spans) :
    ∃ positions' spans', clipToBox inside left i kept.length positions spans =
        (((List.range original.length).filter (insideAt inside original)).length, positions', spans') ∧
      Compacted original ((List.range original.length).filter (insideAt inside original)) original.length positions' ∧
      List.Forall₂ (SpanCompacted original.length ((List.range original.length).filter (insideAt inside original))
        original.length) originals spans' := by
  induction left generalizing i kept positions spans with
  | zero =>
    rw [Nat.add_zero] at whole
    subst whole chosen
    exact ⟨positions, spans, rfl, before, spansBefore⟩
  | succ left ih =>
    have here : positions[i]? = original[i]? := before.rest i (Nat.le_refl _)
    have short : i < original.length := by omega
    have range : (List.range (i + 1)).filter (insideAt inside original) =
        kept ++ if insideAt inside original i then [i] else [] := by
      rw [List.range_succ, List.filter_append, chosen]
      simp [List.filter_cons]
    have moved := compactedMove before short
    have spansMoved : List.Forall₂ (SpanCompacted original.length (kept ++ [i]) (i + 1)) originals
        (spans.map (moveSpan i kept.length)) :=
      List.forall₂_map_right_iff.mpr (spansBefore.imp fun _ _ => spanMoved short)
    unfold clipToBox
    rw [here]
    split
    · rename_i taken
      rw [show insideAt inside original i = true from taken, if_pos rfl] at range
      have later := ih (i + 1) (by omega) moved range.symm spansMoved
      rw [List.length_append, List.length_singleton] at later
      split
      · rename_i same
        have still : spans.map (moveSpan i i) = spans :=
          (List.map_congr_left fun xs _ => moveSpanSelf i xs).trans (List.map_id _)
        rw [same, moveSelf, still] at later
        rw [same]
        exact later
      · exact later
    · rename_i left_
      rw [show insideAt inside original i = false from Bool.eq_false_iff.mpr left_, if_neg (by simp),
        List.append_nil] at range
      exact ih (i + 1) (by omega) (compactedSkip before) range.symm (spansBefore.imp fun _ _ => spanSkipped)

def picked (kept : List Nat) (xs : List Bytes) : List Bytes := kept.map fun j => xs.getD j []

theorem pickedAll (xs : List Bytes) : picked (List.range xs.length) xs = xs := by
  refine List.ext_getElem? fun j => ?_
  rw [picked, List.getElem?_map]
  rcases Nat.lt_or_ge j xs.length with short | long
  · rw [List.getElem?_range short, List.getElem?_eq_getElem short]
    simp [List.getD_eq_getElem?_getD, short]
  · rw [List.getElem?_eq_none long, List.getElem?_eq_none (by simpa using long)]
    rfl

theorem compactedPicked {original xs : List Bytes} {kept : List Nat} {i : Nat}
    (done : Compacted original kept i xs) (short : ∀ j ∈ kept, j < original.length) :
    xs.take kept.length = picked kept original :=
  compactedTake done fun j mem => by
    rw [List.getD_eq_getElem?_getD, List.getElem?_eq_getElem (short j mem)]
    rfl

theorem clipToBoxPicks (inside : Bytes → Bool) {original : List Bytes} {originals : List (Option (List Bytes))}
    (lengths : ∀ xs, some xs ∈ originals → xs.length = original.length) :
    ∃ positions spans, clipToBox inside original.length 0 0 original originals =
        (((List.range original.length).filter (insideAt inside original)).length, positions, spans) ∧
      positions.take ((List.range original.length).filter (insideAt inside original)).length =
        picked ((List.range original.length).filter (insideAt inside original)) original ∧
      spans.map (Option.map (List.take ((List.range original.length).filter (insideAt inside original)).length)) =
        originals.map (Option.map (picked ((List.range original.length).filter (insideAt inside original)))) := by
  have start : List.Forall₂ (SpanCompacted original.length [] 0) originals originals := by
    refine List.forall₂_same.mpr fun xs mem => ?_
    cases xs with
    | none => trivial
    | some xs => exact ⟨lengths xs mem, compactedStart⟩
  obtain ⟨positions, spans, result, moved, spansMoved⟩ :=
    clipToBoxCompacts original.length 0 (Nat.zero_add _) compactedStart rfl start
  have short : ∀ j ∈ (List.range original.length).filter (insideAt inside original), j < original.length :=
    fun j mem => List.mem_range.mp (List.mem_of_mem_filter mem)
  refine ⟨positions, spans, result, compactedPicked moved short, ?_⟩
  clear result start lengths
  induction spansMoved with
  | nil => rfl
  | @cons before after _ _ span _ ih =>
    rw [List.map_cons, List.map_cons, ih]
    refine congrArg (· :: _) ?_
    cases before with
    | none =>
      cases after with
      | none => rfl
      | some _ => exact span.elim
    | some before =>
      cases after with
      | none => exact span.elim
      | some after => exact congrArg some (compactedPicked span.2 fun j mem => span.1 ▸ short j mem)

/-! ## A node's stage -/

theorem decodePositionsLengths {format : PositionFormat} {header : Header} {points : Bytes} {offset count : Nat}
    {positions : List Bytes} (done : decodePositions dec format header points offset count = .ok (some positions)) :
    positions.length = count ∧ ∀ position ∈ positions, position.length = positionStride format := by
  unfold decodePositions at done
  dsimp only at done
  split at done
  · cases done
  split at done
  · cases done
  cases done
  refine ⟨by simp, fun position mem => ?_⟩
  obtain ⟨j, -, rfl⟩ := List.mem_map.mp mem
  exact dec.positionLength ..

theorem stageAttributeLength {format : Option Format} {source : Option (Except DewError Bytes)} {offset count : Nat} :
    (stageAttribute format source offset count).length = count := by
  unfold stageAttribute
  dsimp only
  split
  · split <;> simp
  · simp

-- The places a node keeps of the points decoded.
def keeps (job : Job) (node : RegionNode) (origin : Origin) (positions : List Bytes) : List Nat :=
  if clips job node then
    (List.range node.pointCount).filter (insideAt (dec.inside job.positionFormat origin) positions)
  else List.range node.pointCount

theorem decodeStages {formats : List (Option Format)} {pending : Pending} {stage : Option (Stage Origin)}
    (done : decode dec job formats pending = .ok stage) :
    ∃ data header points, pending.position = .ok data ∧ deserializePoints dec data = .ok (header, points) ∧
      (header.pointCount < pending.node.offsetInSubset + pending.node.pointCount ∧ stage = none ∨
      ¬ header.pointCount < pending.node.offsetInSubset + pending.node.pointCount ∧ ∃ positions,
        decodePositions dec job.positionFormat header points pending.node.offsetInSubset pending.node.pointCount =
          .ok (some positions) ∧
        stage = some ⟨pending.node, (keeps dec job pending.node (dec.origin header) positions).length,
          dec.origin header, picked (keeps dec job pending.node (dec.origin header) positions) positions,
          (List.zipWith (fun format source => spanOf format source pending.node.offsetInSubset
            pending.node.pointCount) formats pending.attributes).map
              (Option.map (picked (keeps dec job pending.node (dec.origin header) positions)))⟩) := by
  unfold decode at done
  split at done
  · cases done
  rename_i data read
  split at done
  · cases done
  rename_i header points split_
  refine ⟨data, header, points, read, split_, ?_⟩
  dsimp only at done
  split at done
  · rename_i long
    cases done
    exact .inl ⟨long, rfl⟩
  rename_i fits
  split at done
  · cases done
  · cases done
  rename_i positions decoded
  refine .inr ⟨fits, positions, decoded, ?_⟩
  obtain ⟨length, -⟩ := decodePositionsLengths dec decoded
  have lengths : ∀ xs, some xs ∈ List.zipWith (fun format source => spanOf format source
      pending.node.offsetInSubset pending.node.pointCount) formats pending.attributes → xs.length = positions.length := by
    intro xs mem
    obtain ⟨i, bound, here⟩ := List.mem_iff_getElem.mp mem
    rw [List.getElem_zipWith] at here
    unfold spanOf at here
    split at here
    · cases here
    · cases here
      rw [stageAttributeLength, length]
  generalize List.zipWith (fun format source => spanOf format source pending.node.offsetInSubset
    pending.node.pointCount) formats pending.attributes = spans at done lengths ⊢
  split at done
  · rename_i clipped
    have kept : keeps dec job pending.node (dec.origin header) positions =
        (List.range positions.length).filter
          (insideAt (dec.inside job.positionFormat (dec.origin header)) positions) := by
      rw [keeps, length]
      exact if_pos clipped
    obtain ⟨positions', spans', result, front, spansFront⟩ :=
      clipToBoxPicks (dec.inside job.positionFormat (dec.origin header)) lengths
    rw [← length, result] at done
    cases done
    rw [kept, ← front, ← spansFront]
  · rename_i whole
    have kept : keeps dec job pending.node (dec.origin header) positions = List.range positions.length := by
      rw [keeps, length]
      exact if_neg whole
    have still : spans.map (Option.map (picked (List.range positions.length))) = spans := by
      refine (List.map_congr_left fun span mem => ?_).trans (List.map_id _)
      cases span with
      | none => rfl
      | some xs =>
        refine congrArg some ?_
        rw [← lengths xs mem]
        exact pickedAll xs
    cases done
    rw [kept, pickedAll, still, List.length_range, length]

-- The points kept are the points selected.
theorem keepsSelects {node : RegionNode} {origin : Origin} {positions : List Bytes}
    {attributes : List (Option (Format × Bytes))} (length : positions.length = node.pointCount) :
    (if clips job node then
        ((List.range node.pointCount).map (pointAt positions attributes node.offsetInSubset)).filter
          fun p => dec.inside job.positionFormat origin p.position
      else (List.range node.pointCount).map (pointAt positions attributes node.offsetInSubset)) =
      (keeps dec job node origin positions).map (pointAt positions attributes node.offsetInSubset) := by
  unfold keeps
  split
  · rw [List.filter_map]
    refine congrArg (List.map _) (List.filter_congr fun j mem => ?_)
    have short : j < positions.length := length ▸ List.mem_range.mp mem
    rw [insideAt, List.getElem?_eq_getElem short]
    simp [pointAt, List.getD_eq_getElem?_getD, short]
  · rfl

theorem keepsShort {node : RegionNode} {origin : Origin} {positions : List Bytes} {j : Nat}
    (mem : j ∈ keeps dec job node origin positions) : j < node.pointCount := by
  unfold keeps at mem
  split at mem
  · exact List.mem_range.mp (List.mem_of_mem_filter mem)
  · exact List.mem_range.mp mem

-- What a request may rely on about the points of a part.
structure Fitting (formats : List (Option Format)) (part : List Point) : Prop where
  positions : ∀ p ∈ part, p.position.length = positionStride job.positionFormat
  own : ∀ p ∈ part, ∀ (a : Nat) (v : Format × Bytes), p.attributes[a]? = some (some v) →
    formats[a]? = some (some v.1)
  sizes : ∀ p ∈ part, ∀ (a : Nat) format, formats[a]? = some format → (bytesAt format a p).length = stride format

def StageOf (formats : List (Option Format)) (n : RegionNode × Nat) (part : List Point) : Option (Stage Origin) → Prop
  | none => part = []
  | some s => s.node = n.1 ∧ s.kept = part.length ∧ s.positions = part.map Point.position ∧
    (part ≠ [] → s.attributes = formats.zipIdx.map fun f =>
      if stride f.1 = 0 then none else some (part.map (bytesAt f.1 f.2)))

-- One asked attribute of a node, where the format it is staged with is its own.
theorem spanPicks {map : InputStorageMap} {node : RegionNode} {walk a : Nat} {name : List Char}
    {format : Option Format} {source : Option (Except DewError Bytes)} {held : Option (Format × Bytes)}
    {positions : List Bytes} {attributes : List (Option (Format × Bytes))} {kept : List Nat}
    (issued : issueAttribute ds map node walk ((name, format), a) = .ok source)
    (has : unitAttribute ds map node walk (name, a) = some held) (here : attributes[a]? = some held)
    (own : ∀ v, held = some v → format = some v.1) (short : ∀ j ∈ kept, j < node.pointCount) :
    (spanOf format source node.offsetInSubset node.pointCount).map (picked kept) =
      if stride format = 0 then none
      else some ((kept.map (pointAt positions attributes node.offsetInSubset)).map (bytesAt format a)) := by
  unfold spanOf
  split
  · rfl
  rename_i sized
  refine congrArg some ?_
  rw [picked, List.map_map]
  refine List.map_congr_left fun j mem => ?_
  have bound := short j mem
  simp only [issueAttribute, if_neg sized] at issued
  unfold unitAttribute at has
  simp only [Function.comp, bytesAt, pointAt, List.getElem?_map, here, Option.map_some]
  dsimp only at has
  split at has
  · rename_i absent
    rw [absent] at issued
    cases has
    cases issued
    simp [stageAttribute, value, bound]
  rename_i index format' present
  rw [present] at issued
  dsimp only at issued
  split at has
  · cases has
  rename_i location slot
  rw [slot] at issued
  dsimp only at issued
  split at has
  · cases has
  rename_i filled
  rw [if_neg fun none_ => filled (.inr none_)] at issued
  split at has
  · cases has
  rename_i data read
  split at has
  · rename_i fits
    cases has
    have format_ := own _ rfl
    subst format_
    rw [read] at issued
    cases issued
    change (node.offsetInSubset + node.pointCount) * stride (some format') ≤ data.length at fits
    simp only [stageAttribute, if_pos fits]
    simp [value, bound, stride]
  · cases has

theorem issuedPending {asked : List (List Char × Option Format)} {node : RegionNode} {walk : Nat}
    {map : InputStorageMap} {pending : Option Pending} (issued : issue ds asked node walk = .ok pending)
    (points : node.pointCount ≠ 0) (resident : ds.tree node.treeId = some map)
    (slot : ∀ location, map.location node.inputId 0 = some location → location.size ≠ 0) :
    ∃ location attributes, map.location node.inputId 0 = some location ∧ location.size ≠ 0 ∧
      asked.zipIdx.mapM (issueAttribute ds map node walk) = .ok attributes ∧
      pending = some ⟨node, ds.read ⟨walk, 0⟩ location, attributes⟩ := by
  unfold issue at issued
  rw [if_neg points, resident] at issued
  dsimp only at issued
  split at issued
  · cases issued
  rename_i location here
  rw [if_neg (slot location here)] at issued
  split at issued
  · cases issued
  rename_i attributes all
  cases issued
  exact ⟨location, attributes, here, slot location here, all, rfl⟩

theorem unitPositionsRead {map : InputStorageMap} {node : RegionNode} {walk : Nat} {location : Location} {data : Bytes}
    {header : Header} {points : Bytes} {positions : List Bytes} (here : map.location node.inputId 0 = some location)
    (filled : location.size ≠ 0) (read : ds.read ⟨walk, 0⟩ location = .ok data)
    (split_ : deserializePoints dec data = .ok (header, points))
    (fits : ¬ header.pointCount < node.offsetInSubset + node.pointCount)
    (decoded : decodePositions dec job.positionFormat header points node.offsetInSubset node.pointCount =
      .ok (some positions)) :
    unitPositions dec ds job map node walk = some ⟨dec.origin header, positions⟩ := by
  unfold unitPositions
  simp only [here, if_neg filled, read, split_, if_neg fits, decoded]

theorem unitAttributeHeld {nodes : List RegionNode} {n : RegionNode × Nat} {map : InputStorageMap}
    (served : Served dec ds job nodes n map) {a : Nat} {name : List Char} (asked : job.attributeNames[a]? = some name) :
    ∃ held, unitAttribute ds map n.1 n.2 (name, a) = some held := by
  unfold unitAttribute
  dsimp only
  split
  · exact ⟨none, rfl⟩
  · rename_i index format present
    obtain ⟨own, location, data, slot, filled, read, fits⟩ := served.attributes a name index format asked present
    simp only [slot, own, filled, or_self, if_false, read, if_pos fits]
    exact ⟨_, rfl⟩

-- Where an attribute is held, its format is that of the node's configuration.
theorem unitAttributeFormat {map : InputStorageMap} {node : RegionNode} {walk : Nat} {asked : List Char × Nat}
    {v : Format × Bytes} (has : unitAttribute ds map node walk asked = some (some v)) :
    (node.offsetInSubset + node.pointCount) * sizeForFormat v.1 ≤ v.2.length ∧
      ∃ index, getAttributeIndex ds.attributesConfigs node.attributesId asked.1 = some (index, v.1) := by
  unfold unitAttribute at has
  split at has
  · cases has
  rename_i index format present
  split at has
  · cases has
  split at has
  · cases has
  split at has
  · cases has
  split at has
  · rename_i fits
    cases has
    exact ⟨fits, index, present⟩
  · cases has

-- The attributes of a node and the formats they are staged with.
structure Asked (nodes : List RegionNode) (n : RegionNode × Nat) (map : InputStorageMap)
    (attributes : List (Option (Format × Bytes))) : Prop where
  held : List.Forall₂ (fun asked held => unitAttribute ds map n.1 n.2 asked = some held) job.attributeNames.zipIdx attributes
  own : ∀ name ∈ job.attributeNames, ∀ index format,
    getAttributeIndex ds.attributesConfigs n.1.attributesId name = some (index, format) →
    resolveFormat ds nodes name = some format

theorem wantedFormat {nodes : List RegionNode} {a : Nat} :
    ((wanted ds job nodes).map Prod.snd)[a]? = job.attributeNames[a]?.map (resolveFormat ds nodes) := by
  simp [wanted, Function.comp_def]

theorem askedAt {nodes : List RegionNode} {n : RegionNode × Nat} {map : InputStorageMap}
    {attributes : List (Option (Format × Bytes))} (asked : Asked ds job nodes n map attributes) {a : Nat}
    {v : Format × Bytes} (here : attributes[a]? = some (some v)) :
    ((wanted ds job nodes).map Prod.snd)[a]? = some (some v.1) ∧
      (n.1.offsetInSubset + n.1.pointCount) * sizeForFormat v.1 ≤ v.2.length := by
  obtain ⟨⟨name, a'⟩, named, has⟩ := forall₂Get asked.held.flip here
  rw [List.getElem?_zipIdx] at named
  cases name_ : job.attributeNames[a]? with
  | none =>
    rw [name_] at named
    cases named
  | some name' =>
    rw [name_] at named
    cases named
    obtain ⟨fits, index, present⟩ := unitAttributeFormat ds has
    refine ⟨?_, fits⟩
    rw [wantedFormat, name_, Option.map_some, asked.own name (List.mem_of_getElem? name_) index v.1 present]

theorem pointsFitting {nodes : List RegionNode} {n : RegionNode × Nat} {map : InputStorageMap}
    {attributes : List (Option (Format × Bytes))} (asked : Asked ds job nodes n map attributes)
    {positions : List Bytes} {kept : List Nat} (short : ∀ j ∈ kept, j < n.1.pointCount)
    (length : positions.length = n.1.pointCount)
    (widths : ∀ position ∈ positions, position.length = positionStride job.positionFormat) :
    Fitting job ((wanted ds job nodes).map Prod.snd) (kept.map (pointAt positions attributes n.1.offsetInSubset)) := by
  have own : ∀ j, ∀ (a : Nat) (v : Format × Bytes),
      (pointAt positions attributes n.1.offsetInSubset j).attributes[a]? = some (some v) →
      ∃ data, v = (v.1, element (sizeForFormat v.1) data (n.1.offsetInSubset + j)) ∧
        attributes[a]? = some (some (v.1, data)) := by
    intro j a v here
    rw [pointAt, List.getElem?_map] at here
    obtain ⟨held, at_, value_⟩ := Option.map_eq_some_iff.mp here
    cases held with
    | none => cases value_
    | some held =>
      cases value_
      exact ⟨held.2, rfl, at_⟩
  refine ⟨fun p mem => ?_, fun p mem a v here => ?_, fun p mem a format here => ?_⟩
  · obtain ⟨j, chosen, rfl⟩ := List.mem_map.mp mem
    have bound : j < positions.length := length ▸ short j chosen
    refine widths _ ?_
    rw [pointAt, List.getD_eq_getElem?_getD, List.getElem?_eq_getElem bound]
    exact List.getElem_mem bound
  · obtain ⟨j, -, rfl⟩ := List.mem_map.mp mem
    obtain ⟨data, -, at_⟩ := own j a v here
    exact (askedAt ds job asked at_).1
  · obtain ⟨j, chosen, rfl⟩ := List.mem_map.mp mem
    unfold bytesAt
    split
    · rename_i v present
      obtain ⟨data, value_, at_⟩ := own j a v present
      obtain ⟨format', fits⟩ := askedAt ds job asked at_
      rw [here] at format'
      cases format'
      rw [value_]
      exact elementLength fits (Nat.add_lt_add_left (short j chosen) _)
    · exact List.length_replicate

theorem spansPicked {nodes : List RegionNode} {n : RegionNode × Nat} {map : InputStorageMap}
    {attributes : List (Option (Format × Bytes))} (asked : Asked ds job nodes n map attributes)
    {sources : List (Option (Except DewError Bytes))} {positions : List Bytes} {kept : List Nat}
    (all : (wanted ds job nodes).zipIdx.mapM (issueAttribute ds map n.1 n.2) = .ok sources)
    (short : ∀ j ∈ kept, j < n.1.pointCount) :
    (List.zipWith (fun format source => spanOf format source n.1.offsetInSubset n.1.pointCount)
        ((wanted ds job nodes).map Prod.snd) sources).map (Option.map (picked kept)) =
      ((wanted ds job nodes).map Prod.snd).zipIdx.map fun f => if stride f.1 = 0 then none
        else some ((kept.map (pointAt positions attributes n.1.offsetInSubset)).map (bytesAt f.1 f.2)) := by
  refine List.ext_getElem? fun a => ?_
  rw [List.getElem?_map, List.getElem?_map, List.getElem?_zipWith, List.getElem?_zipIdx, wantedFormat]
  simp only [Nat.zero_add]
  cases name_ : job.attributeNames[a]? with
  | none => rfl
  | some name =>
    have wanted_ : (wanted ds job nodes).zipIdx[a]? = some ((name, resolveFormat ds nodes name), a) := by
      simp [wanted, name_]
    have named : job.attributeNames.zipIdx[a]? = some (name, a) := by simp [name_]
    obtain ⟨source, at_, issued⟩ := forall₂Get (mapMOk all) wanted_
    obtain ⟨held, here, has⟩ := forall₂Get asked.held named
    rw [at_]
    refine congrArg some (spanPicks ds issued has here (fun v own => ?_) short)
    cases own
    obtain ⟨-, index, present⟩ := unitAttributeFormat ds has
    exact asked.own name (List.mem_of_getElem? name_) index v.1 present

theorem nodeStaged {nodes : List RegionNode} {n : RegionNode × Nat}
    (readable : n.1.pointCount ≠ 0 → ∃ map, ds.tree n.1.treeId = some map ∧ Served dec ds job nodes n map)
    {pending : Option Pending} {stage : Option (Stage Origin)}
    (issued : issue ds (wanted ds job nodes) n.1 n.2 = .ok pending)
    (decoded : decodePending dec job ((wanted ds job nodes).map Prod.snd) pending = .ok stage) :
    ∃ part, selected dec ds job n = some part ∧ StageOf ((wanted ds job nodes).map Prod.snd) n part stage ∧
      Fitting job ((wanted ds job nodes).map Prod.snd) part := by
  by_cases points : n.1.pointCount = 0
  · rw [issue, if_pos points] at issued
    cases issued
    cases decoded
    exact ⟨[], if_pos points, rfl, ⟨by simp, by simp, by simp⟩⟩
  obtain ⟨map, resident, served⟩ := readable points
  obtain ⟨location, sources, here, filled, all, rfl⟩ := issuedPending ds issued points resident served.slot
  obtain ⟨data, header, codes, read, split_, result⟩ := decodeStages dec job decoded
  dsimp only at read result
  rcases result with ⟨long, -⟩ | ⟨fits, positions, decodedPositions, rfl⟩
  · exact absurd long (Nat.not_lt.mpr (served.subset location data header codes here read split_))
  obtain ⟨length, widths⟩ := decodePositionsLengths dec decodedPositions
  have unit := unitPositionsRead dec ds job here filled read split_ fits decodedPositions
  obtain ⟨attributes, held⟩ : ∃ attributes, job.attributeNames.zipIdx.mapM (unitAttribute ds map n.1 n.2) =
      some attributes := by
    refine mapMTotal fun asked mem => ?_
    obtain ⟨name, a⟩ := asked
    exact unitAttributeHeld dec ds job served (List.mem_zipIdx_iff_getElem?.mp mem)
  have part : selected dec ds job n = some ((keeps dec job n.1 (dec.origin header) positions).map
      (pointAt positions attributes n.1.offsetInSubset)) := by
    unfold selected
    rw [if_neg points, resident]
    dsimp only
    rw [unit, held]
    exact congrArg some (keepsSelects dec job length)
  have short : ∀ j ∈ keeps dec job n.1 (dec.origin header) positions, j < n.1.pointCount := fun j mem => keepsShort dec job mem
  refine ⟨_, part, ⟨rfl, by simp, ?_, fun some_ => ?_⟩, ?_⟩
  · rw [List.map_map]
    rfl
  · have asked : Asked ds job nodes n map attributes :=
      ⟨mapMSome held, served.formats fun none_ => some_ (Option.some.inj (part.symm.trans none_))⟩
    exact spansPicked ds job asked all short
  · by_cases none_ : keeps dec job n.1 (dec.origin header) positions = []
    · rw [none_]
      exact ⟨by simp, by simp, by simp⟩
    · have asked : Asked ds job nodes n map attributes := by
        refine ⟨mapMSome held, served.formats fun nothing => none_ ?_⟩
        exact List.map_eq_nil_iff.mp (Option.some.inj (part.symm.trans nothing))
      exact pointsFitting ds job asked short length widths

/-! ## The run -/

-- A node's reads and what is decoded of them.
def NodeStage (nodes : List RegionNode) (n : RegionNode × Nat) (stage : Option (Stage Origin)) : Prop :=
  ∃ pending, issue ds (wanted ds job nodes) n.1 n.2 = .ok pending ∧
    decodePending dec job ((wanted ds job nodes).map Prod.snd) pending = .ok stage

theorem batchStages {nodes : List RegionNode} {r r' : Result Origin} {batch : List (RegionNode × Nat)}
    (done : runBatch dec ds job (wanted ds job nodes) r batch = .ok r') :
    ∃ stages, List.Forall₂ (NodeStage dec ds job nodes) batch stages ∧ r' = stages.foldl append r := by
  unfold runBatch at done
  split at done
  · cases done
  split at done
  · cases done
  rename_i pending issued
  split at done
  · cases done
  rename_i stages decoded
  cases done
  exact ⟨stages, forall₂Compose (mapMOk issued) (mapMOk decoded), rfl⟩

theorem batchesStages {nodes : List RegionNode} {batches : List (List (RegionNode × Nat))} {r r' : Result Origin}
    (done : batches.foldlM (runBatch dec ds job (wanted ds job nodes)) r = .ok r') :
    ∃ stages, List.Forall₂ (NodeStage dec ds job nodes) batches.flatten stages ∧ r' = stages.foldl append r := by
  induction batches generalizing r with
  | nil =>
    cases done
    exact ⟨[], .nil, rfl⟩
  | cons batch rest ih =>
    rw [List.foldlM_cons] at done
    cases first : runBatch dec ds job (wanted ds job nodes) r batch with
    | error stop =>
      rw [first] at done
      cases done
    | ok middle =>
      rw [first] at done
      obtain ⟨stages, staged, rfl⟩ := batchStages dec ds job first
      obtain ⟨later, stagedLater, rfl⟩ := ih done
      exact ⟨stages ++ later, List.rel_append staged stagedLater, (List.foldl_append ..).symm⟩

theorem requestStages {nodes : List RegionNode} {r : Result Origin} (done : runRegionRequest dec ds job nodes = .ok r) :
    ∃ stages, List.Forall₂ (NodeStage dec ds job nodes) nodes.zipIdx stages ∧
      r = stages.foldl append (empty job (wanted ds job nodes)) := by
  have positive : 0 < batchNodes ds (wanted ds job nodes).length := Nat.lt_of_lt_of_le Nat.one_pos (Nat.le_max_left ..)
  have all := batchesFlatten positive nodes.length nodes.zipIdx (by simp)
  obtain ⟨stages, staged, result⟩ := batchesStages dec ds job done
  exact ⟨stages, all ▸ staged, result⟩

/-! ## Appending -/

-- The result holds these points.
structure Holds (asked : List (List Char × Option Format)) (points : List Point) (r : Result Origin) : Prop where
  count : r.pointCount = points.length
  positions : r.positions.data = points.flatMap Point.position
  attributes : r.attributes = asked.zipIdx.map fun w => ⟨w.1.1, w.1.2, points.flatMap (bytesAt w.1.2 w.2)⟩

theorem appendHolds {asked : List (List Char × Option Format)} {points part : List Point} {r : Result Origin}
    {n : RegionNode × Nat} {stage : Option (Stage Origin)} (before : Holds asked points r)
    (staged : StageOf (asked.map Prod.snd) n part stage) (fitting : Fitting job (asked.map Prod.snd) part) :
    Holds asked (points ++ part) (append r stage) ∧
      (append r stage).nodes.map (fun n => (n.node, n.firstPoint, n.pointCount)) =
        r.nodes.map (fun n => (n.node, n.firstPoint, n.pointCount)) ++
          if part = [] then [] else [(n.1, points.length, part.length)] := by
  have nothing (none_ : part = []) (still : append r stage = r) : Holds asked (points ++ part) (append r stage) ∧
      (append r stage).nodes.map (fun n => (n.node, n.firstPoint, n.pointCount)) =
        r.nodes.map (fun n => (n.node, n.firstPoint, n.pointCount)) ++
          if part = [] then [] else [(n.1, points.length, part.length)] := by
    subst none_
    rw [still, List.append_nil, if_pos rfl, List.append_nil]
    exact ⟨before, rfl⟩
  cases stage with
  | none => exact nothing staged rfl
  | some s =>
    obtain ⟨node, kept, positions, attributes⟩ := staged
    by_cases none_ : part = []
    · refine nothing none_ ?_
      unfold append
      rw [none_] at kept
      exact if_pos kept
    rw [if_neg none_]
    have some_ : s.kept ≠ 0 := fun zero => none_ (List.eq_nil_of_length_eq_zero (kept ▸ zero))
    simp only [append, if_neg some_]
    refine ⟨⟨?_, ?_, ?_⟩, ?_⟩
    · rw [before.count, kept, List.length_append]
    · simp only [appendBuffer]
      rw [before.positions, positions, List.flatMap_append]
      rfl
    · rw [before.attributes, attributes none_]
      refine List.ext_getElem? fun a => ?_
      rw [List.getElem?_zipWith, List.getElem?_map, List.getElem?_map, List.getElem?_map, List.getElem?_zipIdx,
        List.getElem?_zipIdx, List.getElem?_map]
      cases here : asked[a]? with
      | none => rfl
      | some w =>
        simp only [Option.map_some, Nat.zero_add]
        refine congrArg some ?_
        split
        · rename_i sizeless
          have empty_ : part.flatMap (bytesAt w.2 a) = [] := by
            refine List.flatMap_eq_nil_iff.mpr fun p mem => List.eq_nil_of_length_eq_zero ?_
            rw [fitting.sizes p mem a w.2 (by rw [List.getElem?_map, here]; rfl), sizeless]
          simp only [appendBuffer]
          rw [List.flatMap_append, empty_, List.append_nil]
        · simp only [appendBuffer]
          rw [List.flatMap_append]
          rfl
    · rw [List.map_append, List.map_singleton, node, before.count, kept]

-- The stages of the selected nodes are appended one after another.
theorem foldHolds {asked : List (List Char × Option Format)} {nodes : List (RegionNode × Nat)}
    {stages : List (Option (Stage Origin))} {points : List Point} {r : Result Origin}
    (staged : List.Forall₂ (fun n stage => ∃ part, selected dec ds job n = some part ∧
      StageOf (asked.map Prod.snd) n part stage ∧ Fitting job (asked.map Prod.snd) part) nodes stages)
    (before : Holds asked points r) :
    ∃ parts, List.Forall₂ (fun n part => selected dec ds job n = some part) nodes parts ∧
      (∀ part ∈ parts, Fitting job (asked.map Prod.snd) part) ∧
      Holds asked (points ++ parts.flatten) (stages.foldl append r) ∧
      (stages.foldl append r).nodes.map (fun n => (n.node, n.firstPoint, n.pointCount)) =
        r.nodes.map (fun n => (n.node, n.firstPoint, n.pointCount)) ++ tiles points.length nodes parts := by
  induction staged generalizing points r with
  | nil => exact ⟨[], .nil, by simp, by simpa using before, by simp [tiles]⟩
  | cons one _ ih =>
    obtain ⟨part, select, stage, fitting⟩ := one
    obtain ⟨held, listed⟩ := appendHolds job before stage fitting
    obtain ⟨parts, selects, fittings, holds, all⟩ := ih held
    refine ⟨part :: parts, .cons select selects, ?_, ?_, ?_⟩
    · intro other mem
      rcases List.mem_cons.mp mem with rfl | later
      · exact fitting
      · exact fittings other later
    · rw [List.flatten_cons, ← List.append_assoc]
      exact holds
    · rw [List.foldl_cons, all, listed, List.append_assoc, List.length_append, tiles]
      refine congrArg (_ ++ ·) ?_
      split
      · rename_i none_
        rw [none_, List.length_nil, Nat.add_zero, List.nil_append]
      · rfl

theorem holdsDelivered {nodes : List RegionNode} {parts : List (List Point)} {r : Result Origin}
    (fittings : ∀ part ∈ parts, Fitting job ((wanted ds job nodes).map Prod.snd) part)
    (holds : Holds (wanted ds job nodes) parts.flatten r)
    (listed : r.nodes.map (fun n => (n.node, n.firstPoint, n.pointCount)) = tiles 0 nodes.zipIdx parts) :
    Delivered job nodes.zipIdx parts r := by
  have fitting : ∀ p ∈ parts.flatten, Fitting job ((wanted ds job nodes).map Prod.snd) [p] := by
    intro p mem
    obtain ⟨part, inside, member⟩ := List.mem_flatten.mp mem
    have all := fittings part inside
    exact ⟨by simpa using all.positions p member, by simpa using all.own p member, by simpa using all.sizes p member⟩
  have buffers : ∀ (a : Nat) (buffer : Buffer), r.attributes[a]? = some buffer →
      ((wanted ds job nodes).map Prod.snd)[a]? = some buffer.format ∧
        buffer.data = parts.flatten.flatMap (bytesAt buffer.format a) := by
    intro a buffer here
    rw [holds.attributes, List.getElem?_map, List.getElem?_zipIdx] at here
    cases asked : (wanted ds job nodes)[a]? with
    | none =>
      rw [asked] at here
      cases here
    | some w =>
      rw [asked] at here
      simp only [Option.map_some, Nat.zero_add, Option.some.injEq] at here
      subst here
      rw [List.getElem?_map, asked]
      exact ⟨rfl, rfl⟩
  refine ⟨holds.count, holds.positions, ?_, ⟨?_, fun buffer mem => ?_⟩, fun a buffer here => ?_, listed⟩
  · rw [holds.attributes, List.map_map]
    refine List.ext_getElem? fun a => ?_
    rw [List.getElem?_map, List.getElem?_zipIdx, wanted, List.getElem?_map]
    cases job.attributeNames[a]? <;> rfl
  · rw [holds.positions, holds.count]
    exact flatMapLength fun p mem => (fitting p mem).positions p (List.mem_singleton_self p)
  · obtain ⟨a, here⟩ := List.mem_iff_getElem?.mp mem
    obtain ⟨format, data⟩ := buffers a buffer here
    rw [data, holds.count]
    exact flatMapLength fun p mem => (fitting p mem).sizes p (List.mem_singleton_self p) a buffer.format format
  · obtain ⟨format, data⟩ := buffers a buffer here
    refine ⟨data, fun p mem v value_ => ?_⟩
    have own := (fitting p mem).own p (List.mem_singleton_self p) a v value_
    rw [format] at own
    exact Option.some.inj own

/-! ## The formats of a result -/

def formatsOf (r : Result Origin) : List (Option Format) := r.attributes.map Buffer.format

theorem stageWide {nodes : List RegionNode} {n : RegionNode × Nat} {s : Stage Origin}
    (staged : NodeStage dec ds job nodes n (some s)) : s.attributes.length = (wanted ds job nodes).length := by
  obtain ⟨pending, issued, decoded⟩ := staged
  cases pending with
  | none => cases decoded
  | some pending =>
    have wide : pending.attributes.length = (wanted ds job nodes).length := by
      unfold issue at issued
      split at issued
      · cases issued
      split at issued
      · cases issued
      split at issued
      · cases issued
      split at issued
      · cases issued
      split at issued
      · cases issued
      rename_i attributes all
      cases issued
      rw [← (mapMOk all).length_eq, List.length_zipIdx]
    obtain ⟨_, _, _, -, -, ⟨-, none_⟩ | ⟨-, _, -, some_⟩⟩ := decodeStages dec job decoded
    · cases none_
    · cases some_
      rw [List.length_map, List.length_zipWith, List.length_map, wide, Nat.min_self]

theorem appendFormats {r : Result Origin} {stage : Option (Stage Origin)}
    (wide : ∀ s, stage = some s → s.attributes.length = r.attributes.length) : formatsOf (append r stage) = formatsOf r := by
  unfold append
  split
  · rfl
  rename_i s
  split
  · rfl
  unfold formatsOf
  dsimp only
  refine List.ext_getElem? fun a => ?_
  rw [List.getElem?_map, List.getElem?_map, List.getElem?_zipWith]
  cases here : r.attributes[a]? with
  | none => rfl
  | some buffer =>
    have bound : a < s.attributes.length := by
      rw [wide s rfl]
      exact (List.getElem?_eq_some_iff.mp here).1
    rw [List.getElem?_eq_getElem bound]
    cases s.attributes[a] <;> rfl

theorem foldFormats {nodes : List RegionNode} {walked : List (RegionNode × Nat)} {stages : List (Option (Stage Origin))}
    {r : Result Origin} (staged : List.Forall₂ (NodeStage dec ds job nodes) walked stages)
    (before : formatsOf r = (wanted ds job nodes).map Prod.snd) :
    formatsOf (stages.foldl append r) = (wanted ds job nodes).map Prod.snd := by
  induction staged generalizing r with
  | nil => exact before
  | cons one _ ih =>
    refine ih ((appendFormats fun s some_ => ?_).trans before)
    subst some_
    rw [stageWide dec ds job one, ← List.length_map (f := Prod.snd), ← before, formatsOf, List.length_map]

theorem requestFormats {nodes : List RegionNode} {r : Result Origin}
    (done : runRegionRequest dec ds job nodes = .ok r) : formatsOf r = (wanted ds job nodes).map Prod.snd := by
  obtain ⟨stages, staged, rfl⟩ := requestStages dec ds job done
  refine foldFormats dec ds job staged ?_
  rw [formatsOf, empty, List.map_map]
  rfl

/-! ## Alignment -/

theorem alignedServed {nodes : List RegionNode} {r : Result Origin} {n : RegionNode × Nat} {part : List Point}
    (formats : formatsOf r = (wanted ds job nodes).map Prod.snd) (points : n.1.pointCount ≠ 0)
    (select : selected dec ds job n = some part)
    (values : ∀ (a : Nat) (buffer : Buffer), r.attributes[a]? = some buffer → ∀ p ∈ part, ∀ v : Format × Bytes,
      p.attributes[a]? = some (some v) → buffer.format = some v.1) :
    ∃ map, ds.tree n.1.treeId = some map ∧ Served dec ds job nodes n map := by
  have select' := select
  unfold selected at select
  rw [if_neg points] at select
  split at select
  · cases select
  rename_i map resident
  split at select
  · cases select
  rename_i unit units
  split at select
  · cases select
  rename_i attributes all
  have held := mapMSome all
  refine ⟨map, resident, ⟨fun location slot => ?_, fun location data header codes slot read split_ => ?_,
    fun a name index format named present => ?_, fun some_ name mem index format present => ?_⟩⟩
  · unfold unitPositions at units
    rw [slot] at units
    exact fun none_ => by simp [none_] at units
  · unfold unitPositions at units
    simp only [slot, read, split_] at units
    split at units
    · cases units
    split at units
    · cases units
    · rename_i fits
      exact Nat.not_lt.mp fits
  · obtain ⟨_, -, has⟩ := forall₂Get held (show job.attributeNames.zipIdx[a]? = some (name, a) by simp [named])
    unfold unitAttribute at has
    rw [present] at has
    dsimp only at has
    split at has
    · cases has
    rename_i location slot
    split at has
    · cases has
    rename_i filled
    split at has
    · cases has
    rename_i data read
    split at has
    · rename_i fits
      exact ⟨fun zero => filled (.inl zero), location, data, slot, fun none_ => filled (.inr none_), read, fits⟩
    · cases has
  · obtain ⟨a, named⟩ := List.mem_iff_getElem?.mp mem
    obtain ⟨value_, here, has⟩ := forall₂Get held (show job.attributeNames.zipIdx[a]? = some (name, a) by simp [named])
    cases part with
    | nil => exact absurd select' some_
    | cons p rest =>
      obtain ⟨j, rfl⟩ : ∃ j, p = pointAt unit.positions attributes n.1.offsetInSubset j := by
        have mem : p ∈ (List.range n.1.pointCount).map (pointAt unit.positions attributes n.1.offsetInSubset) := by
          dsimp only at select
          split at select
          · have first : p ∈ p :: rest := List.mem_cons_self ..
            rw [← Option.some.inj select] at first
            exact List.mem_of_mem_filter first
          · rw [Option.some.inj select]
            exact List.mem_cons_self ..
        obtain ⟨j, -, rfl⟩ := List.mem_map.mp mem
        exact ⟨j, rfl⟩
      have asked : (formatsOf r)[a]? = some (resolveFormat ds nodes name) := by
        rw [formats, wantedFormat, named]
        rfl
      rw [formatsOf, List.getElem?_map] at asked
      obtain ⟨buffer, at_, format_⟩ := Option.map_eq_some_iff.mp asked
      cases value_ with
      | none =>
        unfold unitAttribute at has
        rw [present] at has
        dsimp only at has
        split at has
        · cases has
        split at has
        · cases has
        split at has
        · cases has
        split at has <;> cases has
      | some v =>
        have own := values a buffer at_ _ (List.mem_cons_self ..) (v.1, element (sizeForFormat v.1) v.2
          (n.1.offsetInSubset + j)) (by rw [pointAt, List.getElem?_map, here]; rfl)
        obtain ⟨-, index', present'⟩ := unitAttributeFormat ds has
        rw [present] at present'
        cases present'
        rw [← format_, own]

-- A completed request has delivered the points of all selected nodes exactly where their blobs can be had.
theorem completedAligned {nodes : List RegionNode} {r : Result Origin}
    (done : runRegionRequest dec ds job nodes = .ok r) :
    Aligned dec ds job nodes r ↔ Readable dec ds job nodes := by
  constructor
  · rintro ⟨parts, selects, delivered⟩ n mem points
    obtain ⟨i, here⟩ := List.mem_iff_getElem?.mp mem
    obtain ⟨part, at_, select⟩ := forall₂Get selects here
    refine alignedServed dec ds job (requestFormats dec ds job done) points select fun a buffer buffers p inside => ?_
    exact (delivered.values a buffer buffers).2 p (List.mem_flatten.mpr ⟨part, List.mem_of_getElem? at_, inside⟩)
  · intro readable
    obtain ⟨stages, staged, rfl⟩ := requestStages dec ds job done
    have each : List.Forall₂ (fun n stage => ∃ part, selected dec ds job n = some part ∧
        StageOf ((wanted ds job nodes).map Prod.snd) n part stage ∧
        Fitting job ((wanted ds job nodes).map Prod.snd) part) nodes.zipIdx stages := by
      refine List.forall₂_iff_get.mpr ⟨staged.length_eq, fun i left right => ?_⟩
      obtain ⟨pending, issued, decoded⟩ := (List.forall₂_iff_get.mp staged).2 i left right
      exact nodeStaged dec ds job (readable _ (List.get_mem ..)) issued decoded
    have start : Holds (wanted ds job nodes) [] (empty job (wanted ds job nodes) : Result Origin) := by
      refine ⟨rfl, rfl, ?_⟩
      refine List.ext_getElem? fun a => ?_
      rw [empty, List.getElem?_map, List.getElem?_map, List.getElem?_zipIdx]
      cases (wanted ds job nodes)[a]? <;> rfl
    obtain ⟨parts, selects, fittings, holds, listed⟩ := foldHolds dec ds job each start
    exact ⟨parts, selects, holdsDelivered ds job fittings holds listed⟩

/-! ## Two nodes, of which one has the attribute -/

-- A code's first byte is where its point lies, and the box ends at four.
def byteDecoder : Decoder Nat where
  headerSize := 80
  header bytes := ⟨(bytes.getD 8 0).toNat, ⟨.m32, 1⟩, 0, 0⟩
  origin _ := 0
  position format _ code := (List.replicate (positionStride format) 0).set 0 (code.getD 0 0)
  inside _ _ position := position.getD 0 0 ≤ 4
  positionLength _ _ _ := List.length_set.trans List.length_replicate

def intensity : List Char := "intensity".toList

def oneNode (input attributesId : Nat) (count : Nat) : RegionNode :=
  ⟨0, 0, 0, 0, ⟨input, 0⟩, attributesId, 0, count, true, false, false⟩

def positionsBlob (codes : List UInt8) : Bytes :=
  List.replicate 8 0 ++ [UInt8.ofNat codes.length] ++ List.replicate 71 0 ++ codes.flatMap fun c => [c, 0, 0, 0]

def twoUnits : InputStorageMap where
  map id :=
    if id = ⟨0, 0⟩ then some ⟨0, [⟨0, 100, 88⟩, ⟨0, 200, 2⟩], 1⟩
    else if id = ⟨1, 0⟩ then some ⟨1, [⟨0, 300, 84⟩], 1⟩
    else none
  discarded := []

def twoNodes (intensities : Except DewError Bytes) : Dataset where
  tree id := if id = 0 then some twoUnits else none
  attributesConfigs := [[⟨"xyz".toList, ⟨.m32, 1⟩⟩, ⟨intensity, ⟨.u8, 1⟩⟩], [⟨"xyz".toList, ⟨.m32, 1⟩⟩]]
  maxReadsInFlight := 1
  read _ location :=
    if location.offset = 100 then .ok (positionsBlob [9, 2])
    else if location.offset = 200 then intensities
    else .ok (positionsBlob [3])

def clippedJob : Job where
  attributeNames := [intensity]
  positionFormat := .i32Grid
  clipPoint := true
  wholeDataset := false
  canceled _ := false

-- The clip drops the first point of the first node.
theorem completedAlignedTwo :
    ∃ r, runRegionRequest byteDecoder (twoNodes (.ok [7, 9])) clippedJob [oneNode 0 0 2, oneNode 1 1 1] = .ok r ∧
      r.attributes = [⟨intensity, some ⟨.u8, 1⟩, [9, 0]⟩] ∧
      (Aligned byteDecoder (twoNodes (.ok [7, 9])) clippedJob [oneNode 0 0 2, oneNode 1 1 1] r ↔
        Readable byteDecoder (twoNodes (.ok [7, 9])) clippedJob [oneNode 0 0 2, oneNode 1 1 1]) :=
  ⟨_, rfl, rfl, completedAligned byteDecoder _ _ rfl⟩

-- The intensities cannot be read: the request is completed, with zeros for them.
theorem failedReadZeroed :
    ∃ r, runRegionRequest byteDecoder (twoNodes (.error ⟨5, "read failed"⟩)) clippedJob
        [oneNode 0 0 2, oneNode 1 1 1] = .ok r ∧
      r.pointCount = 2 ∧ r.attributes = [⟨intensity, some ⟨.u8, 1⟩, [0, 0]⟩] ∧
      ¬ Aligned byteDecoder (twoNodes (.error ⟨5, "read failed"⟩)) clippedJob [oneNode 0 0 2, oneNode 1 1 1] r := by
  refine ⟨_, rfl, rfl, rfl, ?_⟩
  rintro ⟨parts, selects, -⟩
  cases selects with
  | cons first _ =>
    have none_ : selected byteDecoder (twoNodes (.error ⟨5, "read failed"⟩)) clippedJob (oneNode 0 0 2, 0) = none := rfl
    rw [none_] at first
    cases first

end Dewfall.RegionAlignment
