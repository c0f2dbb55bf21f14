import Dewfall.Converter.TreeBuildRuns

/-! Where the recursion of an insertion ends. Magnitudes have eight bits and levels start again in every
tree, as the source counts them. A node of the deepest level that is split is told apart from a step that
is undefined; what follows either is not claimed. -/
namespace Dewfall.TreeDepth
open General General.Cells General.SortedWindows StorageMap PointSplitter MortonTree TreeBuild TreeSplit TreeInsert
open TreeDescend TreeEnter TreeGraft TreeRegistry TreeBuildRuns

inductive Stop where
  | unfinished
  | deepest
  | undefined
  deriving DecidableEq, Repr

abbrev Step := Nat → Octree → State → Collection → Except Stop (Octree × State)

-- `morton_tree_level_to_lod`
def lodAt (magnitude : BitVec 8) (level : Nat) : Nat := magnitude.toNat * 5 + 4 - level

variable (reads : Location → Option Points) (nodeLimit : Nat)

-- What comes is neither routed to one child nor added.
def splits (lod : Nat) (data : Collection) (children : Nat → Octree) (points : Collection) : Bool :=
  ¬(points.minLod < lod ∧ isLeafNode children = false) ∧
    ¬(isLeafNode children ∧ data.pointCount + points.pointCount ≤ nodeLimit)

def enterAt (insert : Step) (level lod min : Nat) (place : Octree × State) (part : Nat × Collection) :
    Except Stop (Octree × State) :=
  match place with
  | (.node data children, s) =>
    let newMin := setChildMask lod part.1 min
    if level = 4 then
      let (info, root, currentId) := openTree (children part.1) s.currentId
      match moveStorageLocationsToSubtree ⟨s.storageMap, info.storageMap, s.refs⟩ part.2 with
      | none => .error .undefined
      | some moved =>
        (insert newMin root ⟨moved.child, moved.refs, currentId⟩ part.2).map fun (root, inner) =>
          let info : TreeInfo := ⟨info.id, inner.storageMap, true, false⟩
          (.node data (Function.update children part.1 (.tree info root)),
            ⟨moved.parent, inner.refs, inner.currentId⟩)
    else
      let child := if (children part.1).present then children part.1 else emptyNode
      (insert newMin child s part.2).map fun (child, s) =>
        (.node data (Function.update children part.1 child), s)
  | _ => .error .undefined

-- A sub-tree has the magnitude below its parent's, in eight bits.
def insertAt : Nat → BitVec 8 → Nat → Step
  | 0, _, _, _, _, _, _ => .error .unfinished
  | fuel + 1, magnitude, level, min, .node data children, s, points =>
    let lod := lodAt magnitude level
    if magnitude = 0 ∧ level = 4 ∧ splits nodeLimit lod data children points then .error .deepest
    else match arrange reads nodeLimit lod min data children s points with
      | none => .error .undefined
      | some (node, s, parts) =>
        let below := if level = 4 then insertAt fuel (magnitude - 1) 0 else insertAt fuel magnitude (level + 1)
        parts.foldlM (enterAt below level lod min) (node, s)
  | _ + 1, _, _, _, _, _, _ => .error .undefined

def treeAddPointsWithin (fuel : Nat) (r : Registry) (h : Header) (attributesId : Nat) (locations : List Location) :
    Except Stop Registry :=
  match rootFor r h with
  | none => .error .undefined
  | some (root, currentId) =>
    let storageMap := root.info.storageMap.addStorage h.inputId attributesId locations
    let refs := if isChunk h.inputId then Function.update r.chunkTreeRefs h.inputId (some ⟨1, h.pointCount⟩)
      else r.chunkTreeRefs
    (insertAt reads r.nodeLimit fuel (BitVec.ofNat 8 root.magnitude) 0 root.mortonMin root.top
      ⟨storageMap, refs, currentId⟩ (pointsDataInitialize h)).map fun (top, s) =>
        let info : TreeInfo := ⟨root.info.id, s.storageMap, true, false⟩
        { r with
          currentId := s.currentId
          chunkTreeRefs := s.refs
          root := some ⟨root.magnitude, root.mortonMin, info, top⟩ }

def addBatchWithin (fuel : Nat) (r : Registry) (b : Batch) : Except Stop Registry :=
  treeAddPointsWithin reads fuel r (header b) b.attributesId b.locations

def addAllWithin (fuel limit : Nat) (batches : List Batch) : Except Stop Registry :=
  batches.foldlM (addBatchWithin reads fuel) (newRegistry limit)

variable {reads nodeLimit} {fuel magnitude level : Nat}

/-! ## The recursion ends -/

theorem foldFinishes {α β : Type} {P : α → Prop} {f : α → β → Except Stop α}
    (each : ∀ a b, P a → f a b ≠ .error .unfinished ∧ ∀ c, f a b = .ok c → P c) (l : List β) {a : α} (here : P a) :
    l.foldlM f a ≠ .error .unfinished := by
  induction l generalizing a with
  | nil => exact fun same => nomatch same
  | cons b rest ih =>
    obtain ⟨finishes, kept⟩ := each a b here
    rw [List.foldlM_cons]
    cases step : f a b with
    | error stop =>
      intro same
      refine finishes (step.trans ?_)
      exact congrArg Except.error (Except.error.inj same)
    | ok next => exact ih (kept next step)

theorem mapFinishes {α β : Type} {x : Except Stop α} {f : α → β} (finishes : x ≠ .error .unfinished) :
    x.map f ≠ .error .unfinished := by
  cases x with
  | error stop =>
    intro same
    exact finishes (congrArg Except.error (Except.error.inj same))
  | ok a => exact fun same => nomatch same

theorem enterFinishes {insert : Step} (finishes : ∀ min node s points, insert min node s points ≠ .error .unfinished)
    (lod min : Nat) (place : Octree × State) (part : Nat × Collection) :
    enterAt insert level lod min place part ≠ .error .unfinished := by
  obtain ⟨node, s⟩ := place
  cases node with
  | missing => exact fun same => nomatch same
  | tree info root => exact fun same => nomatch same
  | node data children =>
    unfold enterAt
    dsimp only
    split
    · split
      · exact fun same => nomatch same
      · exact mapFinishes (finishes _ _ _ _)
    · exact mapFinishes (finishes _ _ _ _)

theorem lodLast {m : BitVec 8} (shallow : level ≤ 4) : lodAt m level % 5 = 0 ↔ level = 4 := by
  unfold lodAt
  omega

theorem lodZero {m : BitVec 8} (shallow : level ≤ 4) : lodAt m level = 0 ↔ m = 0 ∧ level = 4 := by
  have zero : m = 0 ↔ m.toNat = 0 := by
    rw [← BitVec.toNat_inj]
    rfl
  unfold lodAt
  rw [zero]
  omega

theorem lodBelow {m : BitVec 8} (shallow : level < 4) : lodAt m (level + 1) + 1 = lodAt m level := by
  unfold lodAt
  omega

theorem lodUnder {m : BitVec 8} (larger : m ≠ 0) : lodAt (m - 1) 0 + 1 = lodAt m 4 := by
  have some_ : m.toNat ≠ 0 := fun zero => larger (BitVec.eq_of_toNat_eq zero)
  have less : (m - 1).toNat = m.toNat - 1 := by
    have bound := m.isLt
    have one : (1 : BitVec 8).toNat = 1 := rfl
    rw [BitVec.toNat_sub, one]
    omega
  unfold lodAt
  rw [less]
  omega

theorem arrangeWhole {lod min data children s points} (whole : splits nodeLimit lod data children points = false)
    (zero : lod = 0) : arrange reads nodeLimit lod min data children s points =
      some (.node (pointsDataAdd data points) children, s, []) := by
  subst zero
  unfold splits at whole
  unfold arrange
  have route : ¬(points.minLod < 0 ∧ isLeafNode children = false) := fun both => Nat.not_lt_zero _ both.1
  rw [if_neg route]
  have fits : isLeafNode children = true ∧ data.pointCount + points.pointCount ≤ nodeLimit := by
    by_contra past
    rw [decide_eq_false_iff_not] at whole
    exact whole ⟨route, past⟩
  rw [if_pos fits]

theorem insertFinishes {m : BitVec 8} (shallow : level ≤ 4) (enough : lodAt m level < fuel) (min : Nat) (node : Octree)
    (s : State) (points : Collection) : insertAt reads nodeLimit fuel m level min node s points ≠ .error .unfinished := by
  induction fuel generalizing m level min node s points with
  | zero => exact absurd enough (Nat.not_lt_zero _)
  | succ fuel ih =>
    cases node with
    | missing => exact fun same => nomatch same
    | tree info root => exact fun same => nomatch same
    | node data children =>
      unfold insertAt
      dsimp only
      split
      · exact fun same => nomatch same
      rename_i whole
      by_cases zero : lodAt m level = 0
      · obtain ⟨smallest, last⟩ := (lodZero shallow).mp zero
        have stays : splits nodeLimit (lodAt m level) data children points = false :=
          Bool.eq_false_iff.mpr fun splits => whole ⟨smallest, last, splits⟩
        rw [arrangeWhole stays zero]
        exact fun same => nomatch same
      · split
        · exact fun same => nomatch same
        · refine @foldFinishes _ _ (fun _ => True) _ (fun place part _ =>
            ⟨enterFinishes (fun min node s points => ?_) _ _ _ _, fun _ _ => trivial⟩) _ _ trivial
          split
          · rename_i last
            subst last
            have larger : m ≠ 0 := fun smallest => zero ((lodZero shallow).mpr ⟨smallest, rfl⟩)
            have under := lodUnder larger
            exact ih (Nat.zero_le 4) (by omega) min node s points
          · rename_i inner
            have below := @lodBelow level m (by omega)
            exact ih (by omega) (by omega) min node s points

/-! ## What is finished is the insertion -/

theorem foldOption {ε α β : Type} (f : α → β → Except ε α) (l : List β) (a : α) :
    (l.foldlM f a).toOption = l.foldlM (fun a b => (f a b).toOption) a := by
  induction l generalizing a with
  | nil => rfl
  | cons b rest ih =>
    rw [List.foldlM_cons, List.foldlM_cons]
    cases f a b with
    | error _ => rfl
    | ok next => exact ih next

theorem foldMono {α β : Type} {f g : α → β → Option α} (le : ∀ a b c, f a b = some c → g a b = some c) (l : List β)
    {a c : α} (result : l.foldlM f a = some c) : l.foldlM g a = some c := by
  induction l generalizing a with
  | nil => exact result
  | cons b rest ih =>
    rw [List.foldlM_cons] at result ⊢
    cases step : f a b with
    | none =>
      rw [step] at result
      cases result
    | some next =>
      rw [step] at result
      rw [le a b next step]
      exact ih result

theorem mapOption {α β : Type} (x : Except Stop α) (f : α → β) : (x.map f).toOption = x.toOption.map f := by
  cases x <;> rfl

def finished (insert : Step) : Insert := fun min node s points => (insert min node s points).toOption

theorem finishedOk {insert : Step} {min node s points r} (done : finished insert min node s points = some r) :
    insert min node s points = .ok r := by
  unfold finished at done
  cases result : insert min node s points with
  | error stop =>
    rw [result] at done
    cases done
  | ok other =>
    rw [result] at done
    exact congrArg Except.ok (Option.some.inj done)

theorem enterOption {insert : Step} {lod : Nat} (last : lod % 5 = 0 ↔ level = 4) (min : Nat) (place : Octree × State)
    (part : Nat × Collection) :
    (enterAt insert level lod min place part).toOption = enterChild (finished insert) lod min place part := by
  obtain ⟨node, s⟩ := place
  cases node with
  | missing => rfl
  | tree info root => rfl
  | node data children =>
    unfold enterAt enterChild
    dsimp only
    by_cases tree : level = 4
    · rw [if_pos tree, if_pos (last.mpr tree)]
      cases moveStorageLocationsToSubtree ⟨s.storageMap, (openTree (children part.1) s.currentId).1.storageMap, s.refs⟩
          part.2 with
      | none => rfl
      | some moved => exact mapOption _ _
    · rw [if_neg tree, if_neg fun zero => tree (last.mp zero)]
      exact mapOption _ _

theorem enterMono {insert insert' : Insert} {lod min : Nat}
    (le : ∀ min node s points r, insert min node s points = some r → insert' min node s points = some r)
    (place : Octree × State) (part : Nat × Collection) (r : Octree × State)
    (result : enterChild insert lod min place part = some r) : enterChild insert' lod min place part = some r := by
  obtain ⟨node, s⟩ := place
  cases node with
  | missing => cases result
  | tree info root => cases result
  | node data children =>
    unfold enterChild at result ⊢
    dsimp only at result ⊢
    split at result
    · rename_i last
      rw [if_pos last]
      split at result
      · cases result
      · obtain ⟨below, done, same⟩ := Option.map_eq_some_iff.mp result
        exact Option.map_eq_some_iff.mpr ⟨below, le _ _ _ _ _ done, same⟩
    · rename_i inner
      rw [if_neg inner]
      obtain ⟨below, done, same⟩ := Option.map_eq_some_iff.mp result
      exact Option.map_eq_some_iff.mpr ⟨below, le _ _ _ _ _ done, same⟩

theorem nodeMono {insert insert' : Insert} {lod : Nat}
    (le : ∀ min node s points r, insert min node s points = some r → insert' min node s points = some r)
    {min node s points r} (result : insertNode reads nodeLimit insert lod min node s points = some r) :
    insertNode reads nodeLimit insert' lod min node s points = some r := by
  cases node with
  | missing => cases result
  | tree info root => cases result
  | node data children =>
    unfold insertNode at result ⊢
    dsimp only at result ⊢
    split at result
    · cases result
    · exact foldMono (enterMono le) _ result

theorem insertStep (lod min : Nat) (node : Octree) (s : State) (points : Collection) :
    insertPoints reads nodeLimit (lod + 1) min node s points =
      insertNode reads nodeLimit (insertPoints reads nodeLimit lod) (lod + 1) min node s points := by
  cases node <;> rfl

def belowAt (reads : Location → Option Points) (nodeLimit fuel : Nat) (magnitude : BitVec 8) (level : Nat) : Step :=
  if level = 4 then insertAt reads nodeLimit fuel (magnitude - 1) 0 else insertAt reads nodeLimit fuel magnitude (level + 1)

theorem insertOption {m : BitVec 8} (shallow : level ≤ 4) (some_ : lodAt m level ≠ 0) (min : Nat) (node : Octree)
    (s : State) (points : Collection) : (insertAt reads nodeLimit (fuel + 1) m level min node s points).toOption =
      insertNode reads nodeLimit (finished (belowAt reads nodeLimit fuel m level)) (lodAt m level) min node s points := by
  cases node with
  | missing => rfl
  | tree info root => rfl
  | node data children =>
    unfold insertAt insertNode
    dsimp only
    rw [if_neg fun deepest => some_ ((lodZero shallow).mpr ⟨deepest.1, deepest.2.1⟩)]
    cases arrange reads nodeLimit (lodAt m level) min data children s points with
    | none => rfl
    | some result =>
      dsimp only
      rw [foldOption]
      congr 1
      funext place part
      exact enterOption (lodLast shallow) _ _ _

-- The level below, in the same tree or in the first of the tree under it.
theorem lodNext {m : BitVec 8} (shallow : level ≤ 4) (some_ : lodAt m level ≠ 0) :
    ∃ lod, lodAt m level = lod + 1 ∧ ∃ m' level', level' ≤ 4 ∧ lodAt m' level' = lod ∧
      ∀ reads nodeLimit fuel, belowAt reads nodeLimit fuel m level = insertAt reads nodeLimit fuel m' level' := by
  by_cases last : level = 4
  · subst last
    have larger : m ≠ 0 := fun smallest => some_ ((lodZero shallow).mpr ⟨smallest, rfl⟩)
    exact ⟨lodAt (m - 1) 0, (lodUnder larger).symm, m - 1, 0, Nat.zero_le 4, rfl, fun _ _ _ => if_pos rfl⟩
  · exact ⟨lodAt m (level + 1), (lodBelow (by omega)).symm, m, level + 1, by omega, rfl, fun _ _ _ => if_neg last⟩

theorem insertPlain {m : BitVec 8} (shallow : level ≤ 4) {min node s points r}
    (done : insertAt reads nodeLimit fuel m level min node s points = .ok r) :
    insertPoints reads nodeLimit (lodAt m level) min node s points = some r := by
  induction fuel generalizing m level min node s points r with
  | zero => cases done
  | succ fuel ih =>
    by_cases zero : lodAt m level = 0
    · obtain ⟨smallest, last⟩ := (lodZero shallow).mp zero
      cases node with
      | missing => cases done
      | tree info root => cases done
      | node data children =>
        unfold insertAt at done
        dsimp only at done
        split at done
        · cases done
        · rename_i whole
          have stays : splits nodeLimit (lodAt m level) data children points = false :=
            Bool.eq_false_iff.mpr fun splits => whole ⟨smallest, last, splits⟩
          have kept := @arrangeWhole reads nodeLimit _ min data children s points stays zero
          rw [kept] at done
          rw [zero] at kept ⊢
          unfold insertPoints
          rw [kept]
          cases done
          rfl
    · obtain ⟨lod, next, m', level', inner, same, below⟩ := lodNext shallow zero
      have result := @insertOption reads nodeLimit fuel level m shallow zero min node s points
      rw [done, below, next] at result
      rw [next, insertStep]
      refine nodeMono (fun min node s points r finished_ => ?_) result.symm
      rw [← same]
      exact ih inner (finishedOk finished_)

theorem insertsAt {u : Units} {Q : InputId → Nat → Nat → List Subset → Prop} (env : Env u reads nodeLimit Q)
    {m : BitVec 8} (shallow : level ≤ 4) (enough : lodAt m level < fuel) :
    Inserts u Q (finished (insertAt reads nodeLimit fuel m level)) (lodAt m level) := by
  induction fuel generalizing m level with
  | zero => exact absurd enough (Nat.not_lt_zero _)
  | succ fuel ih =>
    by_cases zero : lodAt m level = 0
    · intro trees rest min data children s points cell placed gathered _
      rw [zero] at cell placed gathered ⊢
      obtain ⟨leaf, fits, kept, after⟩ := deepestSpec env cell placed gathered
      refine ⟨pointsDataAdd data points, children, s, ?_, after, addKept⟩
      have stays : splits nodeLimit 0 data children points = false := by
        unfold splits
        rw [decide_eq_false_iff_not]
        exact fun splits => splits.2 ⟨leaf, fits⟩
      unfold finished insertAt
      dsimp only
      rw [zero, stays, kept, if_neg fun deepest => Bool.noConfusion deepest.2.2]
      rfl
    · obtain ⟨lod, next, m', level', inner, same, below⟩ := lodNext shallow zero
      have whole : finished (insertAt reads nodeLimit (fuel + 1) m level) =
          insertNode reads nodeLimit (finished (insertAt reads nodeLimit fuel m' level')) (lod + 1) := by
        funext min node s points
        rw [← next, ← below]
        exact insertOption shallow zero min node s points
      have inserts := ih inner (show lodAt m' level' < fuel by omega)
      rw [same] at inserts
      rw [whole, next]
      exact nodeSpec env inserts

/-! ## The registry -/

def Small (r : Registry) : Prop := ∀ root, r.root = some root → root.magnitude < 12

theorem reparentSmall {currentId lo hi id} {tree root : Root}
    (made : reparentTree currentId tree lo hi = some (root, id)) : root.magnitude < 12 := by
  unfold reparentTree at made
  dsimp only at made
  generalize (if tree.mortonMin < lo then tree.mortonMin else lo) = newMin at made
  generalize (if tree.mortonMax < hi then hi else tree.mortonMax) = newMax at made
  split at made
  · cases made
  · rename_i fits
    split at made
    · cases made
      exact Nat.lt_of_not_le fun past => fits (Or.inl past)
    · cases made

theorem rootSmall {r : Registry} {h : Header} {root id} (small : Small r) (chosen : rootFor r h = some (root, id)) :
    root.magnitude < 12 := by
  unfold rootFor at chosen
  split at chosen
  · obtain ⟨made, initialized, same⟩ := Option.map_eq_some_iff.mp chosen
    cases same
    unfold treeInitialize at initialized
    dsimp only at initialized
    split at initialized
    · cases initialized
    · rename_i fits
      cases initialized
      exact Nat.lt_of_not_le fits
  · rename_i old known
    split at chosen
    · exact reparentSmall chosen
    · cases chosen
      exact small root known

theorem rootLevel {root : Root} (small : root.magnitude < 12) :
    lodAt (BitVec.ofNat 8 root.magnitude) 0 = root.lod ∧ root.lod < 60 := by
  have whole : (BitVec.ofNat 8 root.magnitude).toNat = root.magnitude := by
    rw [BitVec.toNat_ofNat]
    omega
  unfold lodAt Root.lod magnitudeToLod
  rw [whole]
  omega

theorem withinFinishes {r : Registry} {h attributesId locations} (small : Small r) (enough : 60 ≤ fuel) :
    treeAddPointsWithin reads fuel r h attributesId locations ≠ .error .unfinished := by
  unfold treeAddPointsWithin
  split
  · exact fun same => nomatch same
  · rename_i root currentId chosen
    obtain ⟨level, most⟩ := rootLevel (rootSmall small chosen)
    exact mapFinishes (insertFinishes (Nat.zero_le 4) (by omega) _ _ _ _)

theorem withinPlain {r r' : Registry} {h attributesId locations} (small : Small r)
    (done : treeAddPointsWithin reads fuel r h attributesId locations = .ok r') :
    treeAddPoints reads r h attributesId locations = some r' ∧ Small r' := by
  unfold treeAddPointsWithin at done
  unfold treeAddPoints
  cases chosen : rootFor r h with
  | none =>
    rw [chosen] at done
    cases done
  | some place =>
    obtain ⟨root, currentId⟩ := place
    rw [chosen] at done
    dsimp only at done ⊢
    have bound := rootSmall small chosen
    generalize inserted : insertAt reads r.nodeLimit fuel _ _ _ _ _ _ = result at done
    cases result with
    | error stop => cases done
    | ok place =>
      have plain := insertPlain (Nat.zero_le 4) inserted
      rw [(rootLevel bound).1] at plain
      rw [plain]
      cases done
      refine ⟨rfl, fun other known => ?_⟩
      cases known
      exact bound

theorem batchesFinish {rest : List Batch} {r : Registry} (small : Small r) (enough : 60 ≤ fuel) :
    rest.foldlM (addBatchWithin reads fuel) r ≠ .error .unfinished :=
  @foldFinishes _ _ Small (addBatchWithin reads fuel)
    (fun _ _ here => ⟨withinFinishes here enough, fun _ done => (withinPlain here done).2⟩) rest _ small

theorem addFinished {base batches r done b} (enough : 60 ≤ fuel) (accepted : Accepted reads batches)
    (fits : Fits nodeLimit batches) (ground : Ground (unitsOf batches) base)
    (near : Has 60 base (header b).mortonMin ∧ Has 60 base (header b).mortonMax)
    (registered : Registered (unitsOf batches) nodeLimit base done r) (small : Small r) (mem : b ∈ batches)
    (fresh : b.id ∉ done) : ∃ r', addBatchWithin reads fuel r b = .ok r' ∧ addBatch reads r b = some r' ∧
      Registered (unitsOf batches) nodeLimit base (b.id :: done) r' ∧ Small r' := by
  obtain ⟨r', added, registered'⟩ := addRegistered accepted fits ground near registered mem fresh
  have readable := unitsReadable accepted
  have env : Env (unitsOf batches) reads nodeLimit (heldBy (unitsOf batches) (b.id :: done)) :=
    ⟨readable, unitsRoom accepted fits, fun id codes solid => heldClosed solid⟩
  obtain ⟨unit, stored⟩ := unitCodes accepted.distinct mem
  obtain ⟨root, currentId, chosen, rooted, covers, absent⟩ :=
    rootForRegistered readable ground registered unit near.1 near.2
  have placed := arrivePlaced readable (heldArrives unit fresh) rooted (absent b.id fresh) stored.symm covers
    b.codes.length currentId
  have gathered := (unitGathered readable unit covers).2.2
  obtain ⟨level, most⟩ := rootLevel rooted.magnitude
  obtain ⟨data, children, shape⟩ := rooted.node
  rw [shape] at placed
  have inserts := insertsAt env (Nat.zero_le 4) (show lodAt (BitVec.ofNat 8 root.magnitude) 0 < fuel by omega)
  rw [level] at inserts
  obtain ⟨data', children', s', result, _⟩ := inserts _ _ _ data children _
    (pointsDataInitialize (sortedUnit b.id b.codes).header) (rootCell ground rooted) placed gathered (List.cons_ne_nil _ _)
  have within : ∃ r'', addBatchWithin reads fuel r b = .ok r'' := by
    unfold addBatchWithin treeAddPointsWithin header
    rw [chosen]
    dsimp only
    rw [shape, registered.limits, show (sortedUnit b.id b.codes).header.inputId = b.id from rfl,
      show (sortedUnit b.id b.codes).header.pointCount = b.codes.length from rfl, finishedOk result]
    exact ⟨_, rfl⟩
  obtain ⟨r'', finished_⟩ := within
  obtain ⟨plain, small'⟩ := withinPlain small finished_
  obtain rfl : r'' = r' := Option.some.inj (plain.symm.trans added)
  exact ⟨r'', finished_, added, registered', small'⟩

theorem runFinished {base} {batches rest : List Batch} {r done} (enough : 60 ≤ fuel) (accepted : Accepted reads batches)
    (fits : Fits nodeLimit batches) (ground : Ground (unitsOf batches) base)
    (near : ∀ b ∈ batches, Has 60 base (header b).mortonMin ∧ Has 60 base (header b).mortonMax)
    (registered : Registered (unitsOf batches) nodeLimit base done r) (small : Small r) (mem : ∀ b ∈ rest, b ∈ batches)
    (fresh : (rest.map Batch.id).Nodup ∧ ∀ b ∈ rest, b.id ∉ done) :
    ∃ r', rest.foldlM (addBatchWithin reads fuel) r = .ok r' ∧ rest.foldlM (addBatch reads) r = some r' := by
  induction rest generalizing r done with
  | nil => exact ⟨r, rfl, rfl⟩
  | cons b later ih =>
    obtain ⟨here, others⟩ := List.forall_mem_cons.mp mem
    obtain ⟨fresh_, free⟩ := fresh
    obtain ⟨apart, once⟩ := List.nodup_cons.mp (List.map_cons ▸ fresh_)
    obtain ⟨next, within, step, one, small'⟩ := addFinished enough accepted fits ground (near b here) registered small here
      (free b List.mem_cons_self)
    have left : ∀ c ∈ later, c.id ∉ b.id :: done := by
      intro c there mem
      rcases List.mem_cons.mp mem with same | old
      · exact apart (same ▸ List.mem_map_of_mem there)
      · exact free c (List.mem_cons_of_mem _ there) old
    obtain ⟨r', result, plain⟩ := ih one small' others ⟨once, left⟩
    refine ⟨r', ?_, ?_⟩
    · rw [List.foldlM_cons, within]
      exact result
    · rw [List.foldlM_cons, step]
      exact plain

-- The recursion ends whatever is added; where the smallest cells have room no deepest node is split.
theorem insertionEnds {batches : List Batch} (enough : 60 ≤ fuel) :
    addAllWithin reads fuel nodeLimit batches ≠ .error .unfinished ∧
      (Accepted reads batches → Fits nodeLimit batches →
        ∃ r, addAllWithin reads fuel nodeLimit batches = .ok r ∧ addAll reads nodeLimit batches = some r) := by
  have small : Small (newRegistry nodeLimit) := fun _ known => nomatch known
  refine ⟨batchesFinish small enough, fun accepted fits => ?_⟩
  obtain ⟨base, ground, near⟩ := groundOf fits
  exact runFinished enough accepted fits ground near (newRegistered (unitsOf batches) nodeLimit base) small
    (fun _ mem => mem) ⟨accepted.distinct, fun _ _ => List.not_mem_nil⟩

-- The first unit is split to its last digits, the third has the root re-parented.
theorem severalEnd : addAllWithin (readFrom several) 60 3 several ≠ .error .unfinished ∧
    ∃ r, addAllWithin (readFrom several) 60 3 several = .ok r ∧ addAll (readFrom several) 3 several = some r := by
  have ends := @insertionEnds (readFrom several) 3 60 several (Nat.le_refl 60)
  refine ⟨ends.1, ends.2 ⟨by decide, by decide, by decide, fun b mem => ?_⟩
    ⟨fun min aligned => ?_, ⟨0, by decide, by decide⟩, by decide⟩⟩
  · simp only [several, List.mem_cons, List.not_mem_nil, or_false] at mem
    rcases mem with rfl | rfl | rfl
    · exact ⟨⟨0, 1, 1⟩, rfl, by decide⟩
    · exact ⟨⟨0, 2, 1⟩, rfl, by decide⟩
    · exact ⟨⟨0, 3, 1⟩, rfl, by decide⟩
  · obtain ⟨q, rfl⟩ := aligned
    simp only [several, batchOf, codesIn, between, List.map_cons, List.map_nil, List.sum_cons, List.sum_nil,
      List.filter_cons, List.filter_nil, decide_eq_true_eq]
    split <;> split <;> split <;> split <;> split <;> split <;> simp only [List.length_cons, List.length_nil] <;> omega

/-! Three points of one code and nodes of two: the deepest node of the smallest tree is split. -/

def stopOf {α : Type} : Except Stop α → Option Stop
  | .error stop => some stop
  | .ok _ => none

theorem equalSplitDeepest : ¬∀ reads limit batches, Accepted reads batches →
    addAllWithin reads 60 limit batches ≠ .error .deepest := by
  intro all
  have accepted : Accepted (readFrom equal) equal := by
    refine ⟨by decide, by decide, by decide, fun b mem => ?_⟩
    obtain rfl := List.mem_singleton.mp mem
    exact ⟨⟨0, 1, 1⟩, rfl, by decide⟩
  have stops : stopOf (addAllWithin (readFrom equal) 60 2 equal) = some .deepest := by decide
  refine all (readFrom equal) 2 equal accepted ?_
  cases result : addAllWithin (readFrom equal) 60 2 equal with
  | error stop =>
    rw [result] at stops
    exact congrArg Except.error (Option.some.inj stops)
  | ok r =>
    rw [result] at stops
    cases stops

end Dewfall.TreeDepth
