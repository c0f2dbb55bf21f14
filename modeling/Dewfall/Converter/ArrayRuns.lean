import Dewfall.Converter.ArrayReparent
import Dewfall.Converter.TreeBuildRuns

/-! Any run of units through the arrays, next to the same run through the nested tree. The units are sorted, have
points, and find room in the smallest cells. -/
namespace Dewfall.ArrayRuns
open General General.Cells General.Blocks StorageMap PointSplitter MortonTree TreeReparent ArrayBuild ArrayForm ArrayNest
  ArrayGrow ArrayHang ArrayInsert ArrayReparent
open TreeBuild (Octree TreeInfo Root State newTree emptyNode insertPoints pointsDataInitialize newRegistry)
open TreeInsert (Octree.isNode)
open TreeSplit (Units)
open TreeDescend (Env Placed)
open TreeRegistry (Rooted Ground rootCell arrivePlaced unitGathered spannedBy)
open TreeNear (Pointed Allowed allowedOnly)
open TreeBuildRuns
open LodWork (nodeAt dataAt treeLevelToLod nodeMinOf)

structure RootStands (g : Registry) (id : Nat) (t : Tree) (root : Root) : Prop where
  found : g.get id = some t
  ownId : t.id = root.info.id
  magnitude : t.magnitude = root.magnitude
  mortonMin : t.mortonMin = root.mortonMin
  mortonMax : t.mortonMax = root.mortonMax
  storage : t.storageMap = root.info.storageMap
  isNode : Octree.isNode root.top = true
  nests : Nests g root.top (rootOf id)
  under : Under g root.magnitude

structure Mirrors (w : Trees) (r : TreeBuild.Registry) : Prop where
  wired : Wired w.registry
  limit : w.nodeLimit = r.nodeLimit
  refs : w.chunkTreeRefs = r.chunkTreeRefs
  counter : w.registry.currentId = r.currentId
  root : match r.root with
    | none => w.root = none ∧ w.registry.data = []
    | some root => ∃ id t, w.root = some id ∧ RootStands w.registry id t root ∧ infoOf t = root.info

theorem rootLod {g : Registry} {id : Nat} {t : Tree} {root : Root} (stands : RootStands g id t root) : t.lod = root.lod := by
  rw [Tree.lod, stands.magnitude, Root.lod]

theorem newMirrors (limit : Nat) : Mirrors (newTrees limit) (newRegistry limit) := by
  have none_ : ∀ {id : Nat} {t : Tree}, (newTrees limit).registry.get id = some t → False := by
    intro id t found
    cases found
  exact ⟨⟨rfl, fun found => (none_ found).elim, fun found => (none_ found).elim, fun found => (none_ found).elim,
    fun found => (none_ found).elim⟩, rfl, rfl, rfl, rfl, rfl⟩

/-! ## The root that takes a unit -/

structure Chosen (w w' : Trees) (id : Nat) (t : Tree) (root : Root) (currentId : Nat) : Prop where
  wired : Wired w'.registry
  limit : w'.nodeLimit = w.nodeLimit
  refs : w'.chunkTreeRefs = w.chunkTreeRefs
  counter : w'.registry.currentId = currentId
  stands : RootStands w'.registry id t root

section
variable {w : Trees} {r : TreeBuild.Registry} {h : Header}

theorem initializeFollows {root : Root} (mirrors : Mirrors w r) (fresh : w.registry.data = [])
    (made : TreeBuild.treeInitialize r.currentId h = some root) :
    ∃ w' id t, treeInitialize w h = some (w', id) ∧ Chosen w w' id t root (r.currentId + 1) := by
  unfold TreeBuild.treeInitialize at made
  dsimp only at made
  split at made
  · cases made
  · rename_i small
    cases made
    let lod := magnitudeToLod (mortonMagnitude h.mortonMin h.mortonMax)
    let blank : Tree := { blankTree w.registry.currentId with
      magnitude := mortonMagnitude h.mortonMin h.mortonMax
      mortonMin := maskMin lod h.mortonMin
      mortonMax := maskMax lod h.mortonMin
      isDirty := true }
    let t := pushRoot blank (getName 0 0 (getChildMask (lod + 1) h.mortonMin))
    have formed : Formed t := by
      refine rootFormed rfl rfl ?_
      change getName 0 0 (getChildMask (lod + 1) h.mortonMin) = getName 0 0 (getChildMask (lod + 1) (maskMin lod h.mortonMin))
      rw [maskDigit]
    have gets := addedGets mirrors.wired t
    have known : ((treeCacheAddTree w.registry).1.set w.registry.currentId t).get w.registry.currentId = some t :=
      (gets _).trans (if_pos rfl)
    refine ⟨{ w with registry := (treeCacheAddTree w.registry).1.set w.registry.currentId t }, w.registry.currentId, t, ?_,
      addedWired mirrors.wired rfl formed rfl, rfl, rfl, congrArg (· + 1) mirrors.counter, known,
      mirrors.counter, rfl, rfl, ?_, rfl, rfl,
      emptyNests known rfl rfl, fun {id u} found => ?_⟩
    · unfold treeInitialize
      dsimp only
      rw [if_neg small]
      rfl
    · change floor (lod + 1) h.mortonMin + (8 ^ (lod + 1) - 1) =
        floor (lod + 1) (floor (lod + 1) h.mortonMin) + (8 ^ (lod + 1) - 1)
      rw [floorOf (floorAligned _ _) hasSelf]
    · rw [gets] at found
      split at found
      · cases found
        exact Nat.le_refl _
      · unfold Registry.get at found
        rw [fresh] at found
        cases found

theorem reparentFollows {root next : Root} {id currentId : Nat} {t : Tree} (mirrors : Mirrors w r)
    (stands : RootStands w.registry id t root) (info : infoOf t = root.info) (aligned : Aligned (root.lod + 1) root.mortonMin)
    (made : TreeBuild.reparentTree r.currentId root h.mortonMin h.mortonMax = some (next, currentId)) :
    ∃ g id' t', reparentTree w.registry id h.mortonMin h.mortonMax = some (g, id') ∧
      Chosen w { w with registry := g } id' t' next currentId := by
  have lod := rootLod stands
  have alignedTree : Aligned (t.lod + 1) t.mortonMin := by
    rw [lod, stands.mortonMin]
    exact aligned
  have stop : t.mortonMax = t.mortonMin + (8 ^ (t.lod + 1) - 1) := by
    rw [stands.mortonMax, stands.mortonMin, lod]
    exact TreeRegistry.rootStop aligned
  obtain ⟨belowTree, _, aboveTree, _⟩ := unitedBounds t h.mortonMin h.mortonMax
  unfold TreeBuild.reparentTree at made
  dsimp only at made
  rw [← stands.mortonMin, ← stands.mortonMax] at made
  change (if 12 ≤ mortonMagnitude (unitedMin t h.mortonMin) (unitedMax t h.mortonMax) ∨ mortonMagnitude (unitedMin t h.mortonMin)
    (unitedMax t h.mortonMax) ≤ root.magnitude then none else _) = _ at made
  split at made
  · cases made
  · rename_i bounds
    obtain ⟨small, more⟩ := not_or.mp bounds
    have covers : Has (magnitudeToLod (mortonMagnitude (unitedMin t h.mortonMin) (unitedMax t h.mortonMax)) + 1)
        (maskMin (magnitudeToLod (mortonMagnitude (unitedMin t h.mortonMin) (unitedMax t h.mortonMax)))
          (unitedMin t h.mortonMin)) t.mortonMin := by
      have spans := TreeRegistry.magnitudeSpans (unitedMin t h.mortonMin) (unitedMax t h.mortonMax)
      refine (hasDiv (floorAligned _ _)).mpr ((lodBetween spans belowTree ?_).trans ?_)
      · exact (stop ▸ Nat.le_add_right ..).trans aboveTree
      · exact (hasDiv (floorAligned _ _)).mp (floorHas _ _)
    obtain ⟨parent, madeParent, idParent, magnitude, min, opened⟩ := @newParentOpened t h.mortonMin h.mortonMax
      w.registry.currentId (Nat.not_le.mp small) covers
    obtain ⟨above, difference⟩ := Nat.exists_eq_add_of_lt (show t.magnitude < parent.magnitude by
      rw [magnitude, stands.magnitude]
      exact Nat.not_le.mp more)
    have fresh : parent.storageMap = StorageMap.fresh := by
      unfold treeInitializeNewParent at madeParent
      change (if 12 ≤ mortonMagnitude (unitedMin t h.mortonMin) (unitedMax t h.mortonMax) then none else some _) = _ at madeParent
      rw [if_neg small] at madeParent
      cases madeParent
      rfl
    -- The new root, which lists no tree yet.
    let g := (treeCacheAddTree w.registry).1.set w.registry.currentId parent
    have gets := addedGets mirrors.wired parent
    have wired : Wired g := addedWired mirrors.wired idParent (openedFormed opened) opened.subTrees
    have inside := getInside stands.found
    have numbered := mirrors.wired.numbered
    have old : ∀ {other : Nat} {u : Tree}, w.registry.get other = some u → g.get other = some u := by
      intro other u found
      have within := getInside found
      rw [gets, if_neg (by omega)]
      exact found
    have known : g.get w.registry.currentId = some parent := (gets _).trans (if_pos rfl)
    have free : Free g id := by
      intro other x u found at_
      rw [gets] at found
      split at found
      · cases found
        rw [opened.subTrees] at at_
        cases at_
      · obtain ⟨s, link⟩ := mirrors.wired.links found at_
        obtain rfl : t = s := Option.some.inj (stands.found.symm.trans link.found)
        have most := stands.under found
        have magnitudes := link.magnitude
        rw [← stands.magnitude] at most
        omega
    have here : At w.registry (rootOf id) t.lod t := mirrors.wired.rootHere stands.found
    have nests : Nests g (.tree root.info root.top) (rootOf id) :=
      nestsKept mirrors.wired (fun found _ => old found) here (Nat.le_refl _) ⟨rfl, rfl, stands.isNode, by
        change (w.registry.get id).map infoOf = _
        rw [stands.found, Option.map_some, info], stands.nests⟩
    obtain ⟨g', ran, chained⟩ := chainChained (show above < 256 by omega) wired known (old stands.found) opened difference
      alignedTree free nests
    obtain ⟨sub, linked_⟩ := chained.root
    have last : t.lod % 5 = 4 := by
      unfold Tree.lod magnitudeToLod
      omega
    have steps : magnitudeToLod (mortonMagnitude (unitedMin t h.mortonMin) (unitedMax t h.mortonMax)) - root.lod =
        5 * (above + 1) := by
      rw [← lod, ← magnitude, difference]
      unfold Tree.lod magnitudeToLod
      omega
    have rise : t.lod + 5 * (above + 1) = parent.lod := by
      unfold Tree.lod magnitudeToLod
      omega
    have nested := nestedFive last (c := t.mortonMin) (.tree root.info root.top) above r.currentId
    have counter : g.currentId = r.currentId + 1 := congrArg (· + 1) mirrors.counter
    have below := chained.nests
    have after := chained.counter
    rw [counter] at below after
    rw [show (if t.mortonMin < h.mortonMin then t.mortonMin else h.mortonMin) = unitedMin t h.mortonMin from rfl,
      show (if t.mortonMax < h.mortonMax then h.mortonMax else t.mortonMax) = unitedMax t h.mortonMax from rfl, steps, ← lod,
      nested] at made
    dsimp only at made
    rw [Option.some.injEq, Prod.mk.injEq] at made
    obtain ⟨rfl, rfl⟩ := made
    refine ⟨g', w.registry.currentId, linkTree parent t.mortonMin sub, ?_, chained.wired, rfl, rfl, after.symm, linked_,
      idParent.trans mirrors.counter, magnitude, ?_, ?_, fresh, rfl, ?_, ?_⟩
    · unfold reparentTree
      rw [stands.found]
      dsimp only
      rw [show (treeCacheAddTree w.registry).2 = blankTree w.registry.currentId from rfl, madeParent]
      dsimp only
      rw [idParent]
      rw [show insertTreeInTree 256 ((treeCacheAddTree w.registry).1.set w.registry.currentId parent) w.registry.currentId id =
        some g' from ran]
      rfl
    · change parent.mortonMin = maskMin _ (unitedMin t h.mortonMin)
      rw [min, Tree.lod, magnitude]
    · change parent.mortonMax = maskMax (magnitudeToLod _) (maskMin (magnitudeToLod _) (unitedMin t h.mortonMin))
      rw [← magnitude, ← show maskMin parent.lod (unitedMin t h.mortonMin) = maskMin (magnitudeToLod parent.magnitude) _ from rfl,
        ← min, opened.range.2, opened.range.1]
      unfold maskMax maskMin
      change floor (parent.lod + 1) t.mortonMin + (8 ^ (parent.lod + 1) - 1) =
        floor (parent.lod + 1) (floor (parent.lod + 1) t.mortonMin) + (8 ^ (parent.lod + 1) - 1)
      rw [floorOf (floorAligned _ _) hasSelf]
    · rw [rise]
      exact below
    · rw [← magnitude]
      refine chained.under (Nat.le_refl _) fun {other u} found => ?_
      rw [gets] at found
      split at found
      · cases found
        exact Nat.le_refl _
      · have most := stands.under found
        rw [← stands.magnitude] at most
        omega

theorem rootForFollows {root : Root} {currentId : Nat} (mirrors : Mirrors w r)
    (aligned : ∀ root, r.root = some root → Aligned (root.lod + 1) root.mortonMin)
    (chosen : TreeBuild.rootFor r h = some (root, currentId)) :
    ∃ w' id t, rootFor w h = some (w', id) ∧ Chosen w w' id t root currentId := by
  have before := mirrors.root
  unfold TreeBuild.rootFor at chosen
  unfold rootFor
  cases known : r.root with
  | none =>
    rw [known] at chosen before
    obtain ⟨none_, fresh⟩ := before
    obtain ⟨made, ran, same⟩ := Option.map_eq_some_iff.mp chosen
    cases same
    rw [none_]
    exact initializeFollows mirrors fresh ran
  | some old =>
    rw [known] at chosen before
    obtain ⟨id, t, rooted, stands, info⟩ := before
    rw [rooted]
    dsimp only at chosen ⊢
    rw [show w.get id = some t from stands.found]
    dsimp only
    rw [stands.mortonMin, stands.mortonMax]
    split at chosen
    · rename_i outside
      obtain ⟨g, id', t', ran, done⟩ := reparentFollows mirrors stands info (aligned old known) chosen
      refine ⟨_, id', t', ?_, done⟩
      rw [if_pos outside, ran, Option.map_some, rooted]
    · rename_i inside
      cases chosen
      exact ⟨w, id, t, if_neg inside, mirrors.wired, rfl, rfl, mirrors.counter, stands⟩

end

/-! ## A unit more -/

theorem addFollows {reads : Location → Option Points} {limit base : Nat} {batches : List Batch} {w : Trees}
    {r : TreeBuild.Registry} {done : List InputId} {b : Batch} (accepted : Accepted reads batches) (fits : Fits limit batches)
    (pointed : ∀ b ∈ batches, b.codes ≠ []) (ground : Ground (unitsOf batches) base)
    (near : Has 60 base (header b).mortonMin ∧ Has 60 base (header b).mortonMax)
    (registered : Registered (unitsOf batches) limit base done r) (mirrors : Mirrors w r) (mem : b ∈ batches)
    (fresh : b.id ∉ done) :
    ∃ w' r', treeAddPoints reads w (header b) b.attributesId b.locations = some w' ∧ addBatch reads r b = some r' ∧
      Registered (unitsOf batches) limit base (b.id :: done) r' ∧ Mirrors w' r' := by
  have readable := unitsReadable accepted
  have env : Env (unitsOf batches) reads limit (heldBy (unitsOf batches) (b.id :: done)) :=
    ⟨readable, unitsRoom accepted fits, fun id codes solid => heldClosed solid⟩
  have solid : Pointed (unitsOf batches) := by
    intro id none_
    obtain ⟨b, mem, _, same⟩ := unitFind none_
    exact pointed b mem same
  obtain ⟨unit, stored⟩ := unitCodes accepted.distinct mem
  obtain ⟨root, currentId, chosen, rooted, covers, absent⟩ :=
    rootForRegistered readable ground registered unit near.1 near.2
  obtain ⟨r', added, registered'⟩ := addRegistered accepted fits ground near registered mem fresh
  have aligned : ∀ old, r.root = some old → Aligned (old.lod + 1) old.mortonMin := by
    intro old known
    have trees := registered.trees
    rw [known] at trees
    exact trees.1.aligned
  obtain ⟨w1, id, t, flatRoot, choice⟩ := rootForFollows mirrors aligned chosen
  have stands := choice.stands
  have lod := rootLod stands
  have formed := choice.wired.formed stands.found
  -- What the nested insertion does is what it may do.
  have nested := added
  unfold addBatch TreeBuild.treeAddPoints at nested
  rw [show TreeBuild.rootFor r (header b) = some (root, currentId) from chosen] at nested
  dsimp only at nested
  obtain ⟨⟨top, s'⟩, ran, rfl⟩ := Option.map_eq_some_iff.mp nested
  have placed := arrivePlaced readable (heldArrives unit fresh) rooted (absent b.id fresh) stored.symm covers b.codes.length
    currentId
  have gathered := (unitGathered readable unit covers).2.2
  rw [registered.limits] at ran
  have allowed : Allowed (unitsOf batches) (heldBy (unitsOf batches) (b.id :: done)) root.lod root.mortonMin root.top
      ⟨root.info.storageMap.addStorage b.id b.attributesId b.locations,
        if isChunk b.id then Function.update r.chunkTreeRefs b.id (some ⟨1, b.codes.length⟩) else r.chunkTreeRefs, currentId⟩
      (pointsDataInitialize (header b)) :=
    ⟨rooted.node, rootCell ground rooted, ⟨_, _, placed⟩, gathered, List.cons_ne_nil _ _⟩
  have run : allowedOnly (unitsOf batches) (heldBy (unitsOf batches) (b.id :: done)) (insertPoints reads limit root.lod) root.lod
      root.mortonMin root.top _ (pointsDataInitialize (header b)) = some (top, s') := (if_pos allowed).trans ran
  -- The arrays do the same from the root on.
  let t1 : Tree := { t with
    storageMap := t.storageMap.addStorage b.id b.attributesId b.locations
    leavesCollapsed := false }
  let w2 : Trees := { w1.set id t1 with
    chunkTreeRefs := if isChunk b.id then Function.update w1.chunkTreeRefs b.id (some ⟨1, b.codes.length⟩) else w1.chunkTreeRefs
    root := some id }
  have same : SameArrays t t1 := ⟨⟨rfl, rfl, rfl, rfl⟩, rfl, rfl⟩
  have here : At w1.registry (rootOf id) root.lod t := lod ▸ choice.wired.rootHere stands.found
  have known : w2.registry.get id = some t1 := (getSet (getInside stands.found) t1 id).trans (if_pos rfl)
  have has : Has (root.lod + 1) root.mortonMin (header b).mortonMin := covers _ (headMem (pointed b mem))
  obtain ⟨data, children, shape⟩ := rooted.node
  rw [shape] at run
  have nests := stands.nests
  rw [shape] at nests
  have before : Stands w2 (rootOf id) root.lod t1 (.node data children)
      ⟨root.info.storageMap.addStorage b.id b.attributesId b.locations,
        if isChunk b.id then Function.update r.chunkTreeRefs b.id (some ⟨1, b.codes.length⟩) else r.chunkTreeRefs,
        currentId⟩ := by
    refine ⟨same.shape.wired choice.wired stands.found, ⟨known, here.level, here.inside, here.lod⟩,
      nestsArrays choice.wired here same nests, ?_, ?_, choice.counter⟩
    · change t.storageMap.addStorage _ _ _ = _
      rw [stands.storage]
    · change (if isChunk b.id then _ else _) = _
      rw [choice.refs, mirrors.refs]
  have named : nameAt t1 (rootOf id) = some (getName 0 0 (getChildMask (t1.lod + 1) (header b).mortonMin)) := by
    have digit_ : getChildMask (t.lod + 1) (header b).mortonMin = getChildMask (t.lod + 1) t.mortonMin := by
      rw [lod, stands.mortonMin]
      exact digitSame ((hasDiv rooted.aligned).mp has)
    rw [show getChildMask (t1.lod + 1) _ = _ from digit_]
    exact rootNamed formed id
  have cell : cellOf t1 (getName 0 0 (getChildMask (t1.lod + 1) (header b).mortonMin)) = root.mortonMin := by
    have whole := cellRoot t1
    have rootName := formed.rootName
    change (t.levels 0).nodeIds[0]? = _ at named
    rw [rootName] at named
    have equal := Option.some.inj named
    change getName 0 0 (getChildMask (t.lod + 1) t.mortonMin) = _ at equal
    rw [← equal]
    exact whole.trans stands.mortonMin
  have small : root.lod < 60 := by
    have magnitude := rooted.magnitude
    unfold Root.lod magnitudeToLod
    omega
  have limits : w2.nodeLimit = limit := (choice.limit.trans mirrors.limit).trans registered.limits
  obtain ⟨isNode, w', t', flat, after⟩ := insertFollows env solid small limits before named rooted.aligned cell has run
  refine ⟨w', _, ?_, added, registered', after.stands.wired, after.limit.trans (choice.limit.trans mirrors.limit),
    after.stands.refs, after.stands.counter, id, t', after.root, ⟨after.stands.here.found, ?_, ?_, ?_, ?_,
    after.stands.storage, isNode, after.stands.nests, ?_⟩, ?_⟩
  · unfold treeAddPoints
    rw [show rootFor w (header b) = some (w1, id) from flatRoot]
    dsimp only
    rw [show w1.get id = some t from stands.found]
    dsimp only
    rw [← stands.mortonMin] at flat
    exact flat
  · exact after.same.id.trans stands.ownId
  · exact after.same.magnitude.trans stands.magnitude
  · exact after.same.mortonMin.trans stands.mortonMin
  · exact after.same.mortonMax.trans stands.mortonMax
  · exact after.framed.under (underSet stands.found same.toSameTree stands.under)
  · rw [infoOf, after.same.id, after.stands.storage, after.flags.1, after.flags.2]
    exact congrArg (fun n => (⟨n, s'.storageMap, true, false⟩ : TreeInfo)) stands.ownId

theorem runFollows {reads : Location → Option Points} {limit base : Nat} {batches rest : List Batch} {w : Trees}
    {r : TreeBuild.Registry} {done : List InputId} (accepted : Accepted reads batches) (fits : Fits limit batches)
    (pointed : ∀ b ∈ batches, b.codes ≠ []) (ground : Ground (unitsOf batches) base)
    (near : ∀ b ∈ batches, Has 60 base (header b).mortonMin ∧ Has 60 base (header b).mortonMax)
    (registered : Registered (unitsOf batches) limit base done r) (mirrors : Mirrors w r) (mem : ∀ b ∈ rest, b ∈ batches)
    (fresh : (rest.map Batch.id).Nodup ∧ ∀ b ∈ rest, b.id ∉ done) :
    ∃ w' r', rest.foldlM (fun w b => treeAddPoints reads w (header b) b.attributesId b.locations) w = some w' ∧
      rest.foldlM (addBatch reads) r = some r' ∧
      Registered (unitsOf batches) limit base ((rest.map Batch.id).reverse ++ done) r' ∧ Mirrors w' r' := by
  induction rest generalizing w r done with
  | nil => exact ⟨w, r, rfl, rfl, registered, mirrors⟩
  | cons b later ih =>
    obtain ⟨here, others⟩ := List.forall_mem_cons.mp mem
    obtain ⟨fresh_, free⟩ := fresh
    obtain ⟨apart, once⟩ := List.nodup_cons.mp (List.map_cons ▸ fresh_)
    obtain ⟨w1, r1, flat, step, one, mirror⟩ := addFollows accepted fits pointed ground (near b here) registered mirrors here
      (free b List.mem_cons_self)
    have left : ∀ c ∈ later, c.id ∉ b.id :: done := by
      intro c there mem
      rcases List.mem_cons.mp mem with same | old
      · exact apart (same ▸ List.mem_map_of_mem there)
      · exact free c (List.mem_cons_of_mem _ there) old
    obtain ⟨w', r', flatRest, result, all, mirrors'⟩ := ih one mirror others ⟨once, left⟩
    refine ⟨w', r', ?_, ?_, ?_, mirrors'⟩
    · rw [List.foldlM_cons, flat]
      exact flatRest
    · rw [List.foldlM_cons, step]
      exact result
    · rw [List.map_cons, List.reverse_cons, List.append_assoc]
      exact all

end Dewfall.ArrayRuns
