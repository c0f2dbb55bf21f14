import Dewfall.Converter.ArrayGrow
import Dewfall.Converter.LodGather

/-! A sub-tree that is hung below a node of the last level, over the registry, and the cells that nodes, children and
sub-trees have by their names. -/
namespace Dewfall.ArrayHang
open General General.Cells General.Blocks StorageMap PointSplitter MortonTree TreeReparent ArrayBuild ArrayForm ArrayNest
  ArrayGrow
open TreeBuild (Octree TreeInfo newTree emptyNode)
open TreeInsert (Octree.isNode)
open LodWork (nodeAt dataAt setData treeLevelToLod nodeMinOf setNameInMorton)
open LodGather (absorbed digitBits)

/-! ## The cells of the names -/

theorem bitsApart {lod i min : Nat} (aligned : Aligned (lod + 1) min) (octant : i < 8) :
    min ||| i <<< (lod * 3) = child lod min i := by
  obtain ⟨q, rfl⟩ := aligned
  have small : i <<< (lod * 3) < 2 ^ (3 * (lod + 1)) := by
    rw [Nat.shiftLeft_eq, show 3 * (lod + 1) = 3 + lod * 3 by omega, Nat.pow_add]
    exact Nat.mul_lt_mul_of_pos_right octant (Nat.two_pow_pos _)
  rw [show (8 : Nat) ^ (lod + 1) = 2 ^ (3 * (lod + 1)) by rw [Nat.pow_mul], ← Nat.two_pow_add_eq_or_of_lt small, child,
    Nat.shiftLeft_eq, show (8 : Nat) ^ lod = 2 ^ (lod * 3) by rw [Nat.mul_comm, Nat.pow_mul]]

theorem cellChild {t : Tree} {name i l : Nat} (level : l < 4) (octant : i < 8) :
    cellOf t (getName name (l + 1) i) = cellOf t name ||| i <<< (treeLevelToLod t.magnitude l * 3) := by
  have small : i <<< ((4 - l) * 3) < 2 ^ 16 := by
    have power : 2 ^ ((4 - l) * 3) ≤ 2 ^ 12 := Nat.pow_le_pow_right (by omega) (by omega)
    rw [Nat.shiftLeft_eq]
    calc i * 2 ^ ((4 - l) * 3) ≤ i * 2 ^ 12 := Nat.mul_le_mul_left _ power
      _ < 2 ^ 16 := by omega
  unfold cellOf nodeMinOf setNameInMorton
  rw [getName, Nat.shiftLeft_or_distrib, ← Nat.shiftLeft_add, Nat.or_mod_two_pow,
    show (4 - (l + 1)) * 3 + 3 = (4 - l) * 3 by omega, Nat.mod_eq_of_lt small, Nat.shiftLeft_or_distrib,
    ← Nat.shiftLeft_add, ← Nat.lor_assoc, show (4 - l) * 3 + t.magnitude * 15 = treeLevelToLod t.magnitude l * 3 by
      unfold treeLevelToLod magnitudeToLod
      omega]

-- The root's own name adds the lowest bit of the octant the tree lies in, which is there already.
theorem cellRoot (t : Tree) : cellOf t (getName 0 0 (getChildMask (t.lod + 1) t.mortonMin)) = t.mortonMin := by
  unfold cellOf nodeMinOf setNameInMorton
  refine absorbed fun i set => ?_
  rw [Nat.testBit_shiftLeft, Nat.testBit_mod_two_pow, getName, Nat.zero_or, ← Nat.shiftLeft_add, Nat.testBit_shiftLeft,
    digitBits] at set
  simp only [Bool.and_eq_true, decide_eq_true_eq] at set
  obtain ⟨least, small, more, tiny, own⟩ := set
  rw [show 3 * (t.lod + 1) + (i - t.magnitude * 15 - ((4 - 0) * 3 + 3)) = i by
    simp only [Tree.lod, magnitudeToLod] at own ⊢
    omega] at own
  exact own

theorem maskDigit (lod c : Nat) : getChildMask (lod + 1) (maskMin lod c) = getChildMask (lod + 1) c := by
  unfold getChildMask maskMin digit floor
  rw [Nat.mul_div_cancel _ (powPositive (lod + 1))]

-- A tree that hangs below a node of the last level begins where the node's octant does.
theorem subTreeMin {r : Registry} {q : Position} {lod i name sub : Nat} {t s : Tree} (wired : Wired r) (here : At r q lod t)
    (last : q.level = 4) (octant : i < 8) (named : nameAt t q = some name) (found : toChild r q i = some (rootOf sub))
    (known : r.get sub = some s) :
    s.mortonMin = cellOf t name ||| i <<< (treeLevelToLod t.magnitude q.level * 3) := by
  rw [childOf here.found] at found
  obtain ⟨index, at_, place⟩ := Option.bind_eq_some_iff.mp found
  rw [if_neg (by omega)] at place
  obtain ⟨sub', listed, equal⟩ := Option.map_eq_some_iff.mp place
  cases equal
  obtain ⟨s', link⟩ := wired.links here.found listed
  obtain rfl : s = s' := Option.some.inj (known.symm.trans link.found)
  rw [last] at at_
  rw [link.min q.index i name at_ octant (by rw [← last]; exact named), last]
  congr 2
  unfold treeLevelToLod magnitudeToLod
  omega

/-! ## A sub-tree more -/

structure Hangs (r r' : Registry) (p : Position) (node i name : Nat) (t t' sub : Tree) : Prop where
  gets : ∀ id, r'.get id = if id = r.currentId then some sub else if id = p.tree then some t' else r.get id
  numbered : r'.currentId = r'.data.length
  count : r'.currentId = r.currentId + 1
  hung : TreeHung t t' p.index node i r.currentId
  gap : Gap t 4 p.index node i
  named : (t.levels 4).nodeIds[p.index]? = some name
  ownId : sub.id = r.currentId
  formed : Formed sub
  magnitude : sub.magnitude + 1 = t.magnitude
  min : sub.mortonMin = cellOf t name ||| i <<< (t.magnitude * 15)
  blank : nodeAt sub 0 0 = some 0 ∧ dataAt sub 0 0 = some empty
  info : infoOf sub = newTree r.currentId
  noSubTrees : sub.subTrees = []

theorem hungSame {t t' : Tree} {k node i sub : Nat} (hung : TreeHung t t' k node i sub) :
    SameTree t t' ∧ infoOf t' = infoOf t := by
  rw [hung.rest]
  exact ⟨⟨rfl, rfl, rfl, rfl⟩, rfl⟩

theorem hungNodes {t t' : Tree} {k node i sub : Nat} (hung : TreeHung t t' k node i sub) (l : Nat) :
    (t'.levels l).nodes.length = (t.levels l).nodes.length ∧ (t'.levels l).nodeIds = (t.levels l).nodeIds ∧
      ∀ k, dataAt t' l k = dataAt t l k := by
  by_cases last : l = 4
  · rw [last]
    unfold dataAt
    rw [hung.own, widened]
    exact ⟨List.length_set .., rfl, fun _ => rfl⟩
  · unfold dataAt
    rw [hung.other l last]
    exact ⟨rfl, rfl, fun _ => rfl⟩

theorem hungChild {t t' : Tree} {k node i sub : Nat} (hung : TreeHung t t' k node i sub) {l : Nat} (inner : l ≠ 4) (k' j : Nat) :
    childIndex t' l k' j = childIndex t l k' j := by
  unfold childIndex nodeAt
  rw [hung.other l inner]

namespace Hangs
variable {r r' : Registry} {p : Position} {lod node i name : Nat} {t t' sub : Tree}

theorem old (hangs : Hangs r r' p node i name t t' sub) (wired : Wired r) {id : Nat} {u : Tree} (found : r.get id = some u) :
    id ≠ r.currentId ∧ r'.get id = if id = p.tree then some t' else some u := by
  have inside := getInside found
  rw [← wired.numbered] at inside
  refine ⟨Nat.ne_of_lt inside, ?_⟩
  rw [hangs.gets, if_neg (Nat.ne_of_lt inside), found]

theorem other (hangs : Hangs r r' p node i name t t' sub) (wired : Wired r) {id : Nat} {u : Tree} (found : r.get id = some u)
    (apart : id ≠ p.tree) : r'.get id = some u := by rw [(hangs.old wired found).2, if_neg apart]

theorem own (hangs : Hangs r r' p node i name t t' sub) (wired : Wired r) (here : At r p lod t) : r'.get p.tree = some t' := by
  rw [(hangs.old wired here.found).2, if_pos rfl]

theorem fresh (hangs : Hangs r r' p node i name t t' sub) : r'.get r.currentId = some sub := by
  rw [hangs.gets, if_pos rfl]

theorem trees (hangs : Hangs r r' p node i name t t' sub) (wired : Wired r) (here : At r p lod t) {id : Nat} {u : Tree}
    (found : r.get id = some u) : ∃ u', r'.get id = some u' ∧ SameTree u u' := by
  by_cases own : id = p.tree
  · subst own
    obtain rfl : t = u := Option.some.inj (here.found.symm.trans found)
    exact ⟨t', hangs.own wired here, (hungSame hangs.hung).1⟩
  · exact ⟨u, hangs.other wired found own, .refl u⟩

-- The index of a child on the last level, where the new one is or where the old ones went.
theorem index (hangs : Hangs r r' p node i name t t' sub) (wired : Wired r) (here : At r p lod t) {k j : Nat} (octant : j < 8) :
    childIndex t' 4 k j = if k = p.index ∧ j = i then some (placeOf t 4 p.index node i)
      else (childIndex t 4 k j).map (moved (placeOf t 4 p.index node i)) :=
  widenedChild (wired.formed here.found) (by decide) hangs.gap hangs.hung.own octant

theorem within (hangs : Hangs r r' p node i name t t' sub) (wired : Wired r) (here : At r p lod t) :
    placeOf t 4 p.index node i ≤ t.subTrees.length := by
  have next := @totalTake Nat wide (t.levels 4).nodes p.index node hangs.gap.here
  have all := @totalAll Nat wide (t.levels 4).nodes (p.index + 1)
  have mono := skipsMono node (Nat.le_of_lt hangs.gap.octant)
  rw [(wired.formed here.found).subTrees]
  unfold placeOf
  unfold wide at *
  omega

theorem change (hangs : Hangs r r' p node i name t t' sub) (wired : Wired r) (here : At r p lod t) (level : p.level = 4) :
    Change r r' p lod id := by
  obtain ⟨same, info⟩ := hungSame hangs.hung
  have known := hangs.own wired here
  have inner : ∀ {q m u}, At r q m u → q.tree = p.tree → q.level ≠ 4 → dataIn r' q = dataIn r q ∧
      ∀ j, toChild r' q j = toChild r q j := by
    intro q m u at_ own above
    obtain ⟨rfl, _⟩ := sameLod here at_ own
    rw [← own] at known
    refine ⟨?_, fun j => ?_⟩
    · rw [dataIn, known, dataIn, at_.found]
      exact (hungNodes hangs.hung q.level).2.2 q.index
    · have less := at_.level
      rw [childOf known, childOf at_.found, hungChild hangs.hung above]
      simp only [if_pos (show q.level < 4 by omega)]
  have outer : ∀ {q m u}, At r q m u → q.tree ≠ p.tree →
      dataIn r' q = dataIn r q ∧ ∀ j, toChild r' q j = toChild r q j := by
    intro q m u at_ apart
    have kept := hangs.other wired at_.found apart
    refine ⟨by rw [dataIn, kept, dataIn, at_.found], fun j => ?_⟩
    rw [childOf kept, childOf at_.found]
  refine ⟨fun {m} under id u found => ?_, fun found => hangs.trees wired here found, fun {id u} found apart => ?_,
    fun {q m u} at_ _ => ?_, fun {q m u} at_ less => ?_, fun _ => rfl, fun _ _ => rfl, fun _ => rfl, fun {q m u} at_ low => ?_,
    fun {q m u} at_ low j octant => ?_⟩
  · have most := under here.found
    have less := hangs.magnitude
    rw [hangs.gets] at found
    split at found
    · cases found
      omega
    · split at found
      · cases found
        exact same.magnitude.symm ▸ most
      · exact under found
  · rw [hangs.other wired found apart]
    rfl
  · by_cases own : q.tree = p.tree
    · obtain ⟨rfl, _⟩ := sameLod here at_ own
      obtain ⟨nodes, names, _⟩ := hungNodes hangs.hung q.level
      exact ⟨t', ⟨own ▸ known, at_.level, nodes ▸ at_.inside, same.magnitude.symm ▸ at_.lod⟩,
        by rw [nameAt, names, nameAt]⟩
    · exact ⟨u, ⟨hangs.other wired at_.found own, at_.level, at_.inside, at_.lod⟩, rfl⟩
  · by_cases own : q.tree = p.tree
    · have sum := (sameLod here at_ own).2
      obtain ⟨data, child⟩ := inner at_ own (by omega)
      exact ⟨data, fun j _ => child j⟩
    · exact ⟨(outer at_ own).1, fun j _ => (outer at_ own).2 j⟩
  · by_cases own : q.tree = p.tree
    · obtain ⟨rfl, _⟩ := sameLod here at_ own
      change dataIn r' q = dataIn r q
      rw [← own] at known
      rw [dataIn, known, dataIn, at_.found]
      exact (hungNodes hangs.hung q.level).2.2 q.index
    · exact (outer at_ own).1
  · rw [Option.map_id]
    change toChild r' q j = toChild r q j
    by_cases own : q.tree = p.tree
    · obtain ⟨rfl, sum⟩ := sameLod here at_ own
      by_cases last : q.level = 4
      · have apart : q.index ≠ p.index := by
          rcases low with low | ⟨_, apart⟩
          · omega
          · intro equal
            obtain ⟨tree, l, k⟩ := q
            dsimp only at own last equal
            exact apart (by rw [own, last, equal, ← level])
        rw [← own] at known
        rw [childOf known, childOf at_.found, last, hangs.index wired here octant, if_neg fun both => apart both.1]
        cases childIndex u 4 q.index j with
        | none => rfl
        | some x =>
          rw [Option.map_some, Option.bind_some, Option.bind_some, if_neg (Nat.lt_irrefl 4), if_neg (Nat.lt_irrefl 4),
            hangs.hung.subTrees, putMoved]
      · exact (inner at_ own last).2 j
    · exact (outer at_ own).2 j

theorem wired (hangs : Hangs r r' p node i name t t' sub) (wired : Wired r) (here : At r p lod t) : Wired r' := by
  obtain ⟨same, _⟩ := hungSame hangs.hung
  have within := hangs.within wired here
  have known := hangs.own wired here
  have cases_ : ∀ {id u}, r'.get id = some u → id = r.currentId ∧ u = sub ∨ id = p.tree ∧ u = t' ∨
      id ≠ p.tree ∧ r.get id = some u := by
    intro id u found
    rw [hangs.gets] at found
    split at found
    · rename_i new
      exact Or.inl ⟨new, (Option.some.inj found).symm⟩
    · split at found
      · rename_i own
        exact Or.inr (Or.inl ⟨own, (Option.some.inj found).symm⟩)
      · rename_i apart
        exact Or.inr (Or.inr ⟨apart, found⟩)
  have oldLinked : ∀ {u x child s}, Linked r u x child s → ∃ s', Linked r' u x child s' := by
    intro u x child s linked
    obtain ⟨s', found, same⟩ := hangs.trees wired here linked.found
    exact ⟨s', found, same.magnitude ▸ linked.magnitude, fun k j name' index octant named =>
      same.mortonMin.trans (linked.min k j name' index octant named)⟩
  -- Where each sub-tree of the registry was listed before, but for the new one.
  have listed : ∀ {id x child : Nat} {u : Tree}, r'.get id = some u → u.subTrees[x]? = some child →
      id = p.tree ∧ x = placeOf t 4 p.index node i ∧ child = r.currentId ∨
        ∃ v y, r.get id = some v ∧ v.subTrees[y]? = some child ∧
          x = if id = p.tree then moved (placeOf t 4 p.index node i) y else y := by
    intro id x child u found at_
    rcases cases_ found with ⟨_, rfl⟩ | ⟨rfl, rfl⟩ | ⟨apart, found'⟩
    · rw [hangs.noSubTrees] at at_
      cases at_
    · rw [hangs.hung.subTrees] at at_
      rcases @movedOr (placeOf t 4 p.index node i) x with rfl | ⟨y, rfl⟩
      · rw [putHere _ within] at at_
        exact Or.inl ⟨rfl, rfl, (Option.some.inj at_).symm⟩
      · rw [putMoved] at at_
        exact Or.inr ⟨t, y, here.found, at_, (if_pos rfl).symm⟩
    · exact Or.inr ⟨u, x, found', at_, (if_neg apart).symm⟩
  have oldChild : ∀ {id y child : Nat} {v : Tree}, r.get id = some v → v.subTrees[y]? = some child → child ≠ r.currentId := by
    intro id y child v found at_
    obtain ⟨s, linked⟩ := wired.links found at_
    exact (hangs.old wired linked.found).1
  refine ⟨hangs.numbered, fun {id u} found => ?_, fun {id u} found => ?_, fun {id x child u} found at_ => ?_,
    fun {id id' x x' child u u'} found found' at_ at' => ?_⟩
  · rcases cases_ found with ⟨rfl, rfl⟩ | ⟨rfl, rfl⟩ | ⟨_, found'⟩
    · exact hangs.ownId
    · exact same.id.trans (wired.own here.found)
    · exact wired.own found'
  · rcases cases_ found with ⟨_, rfl⟩ | ⟨_, rfl⟩ | ⟨_, found'⟩
    · exact hangs.formed
    · exact hungFormed (wired.formed here.found) hangs.gap hangs.hung
    · exact wired.formed found'
  · rcases cases_ found with ⟨_, rfl⟩ | ⟨rfl, rfl⟩ | ⟨_, found'⟩
    · rw [hangs.noSubTrees] at at_
      cases at_
    · have names := (hungNodes hangs.hung 4).2.1
      have cell : ∀ n, cellOf u n = cellOf t n := fun n => by
        rw [cellOf, cellOf, nodeMinOf, nodeMinOf, same.magnitude, same.mortonMin]
      rw [hangs.hung.subTrees] at at_
      rcases @movedOr (placeOf t 4 p.index node i) x with rfl | ⟨y, rfl⟩
      · rw [putHere _ within] at at_
        cases at_
        refine ⟨sub, hangs.fresh, same.magnitude.symm ▸ hangs.magnitude, fun k j name' index octant named => ?_⟩
        rw [hangs.index wired here octant] at index
        split at index
        · rename_i both
          obtain ⟨rfl, rfl⟩ := both
          rw [names, hangs.named] at named
          cases named
          rw [cell, same.magnitude]
          exact hangs.min
        · obtain ⟨y, _, equal⟩ := Option.map_eq_some_iff.mp index
          exact (movedApart equal).elim
      · rw [putMoved] at at_
        obtain ⟨s, linked⟩ := wired.links here.found at_
        obtain ⟨s', after⟩ := oldLinked linked
        refine ⟨s', after.found, same.magnitude.symm ▸ after.magnitude, fun k j name' index octant named => ?_⟩
        rw [hangs.index wired here octant] at index
        split at index
        · exact (movedApart (Option.some.inj index).symm).elim
        · obtain ⟨y', before, equal⟩ := Option.map_eq_some_iff.mp index
          obtain rfl := movedInjective equal
          rw [names] at named
          rw [cell, same.magnitude]
          exact after.min k j name' before octant named
    · obtain ⟨s, linked⟩ := wired.links found' at_
      exact oldLinked linked
  · rcases listed found at_ with ⟨rfl, rfl, rfl⟩ | ⟨v, y, old, there, rfl⟩
    · rcases listed found' at' with ⟨rfl, rfl, _⟩ | ⟨v', y', old', there', _⟩
      · exact ⟨rfl, rfl⟩
      · exact absurd rfl (oldChild old' there')
    · rcases listed found' at' with ⟨_, _, rfl⟩ | ⟨v', y', old', there', rfl⟩
      · exact absurd rfl (oldChild old there)
      · obtain ⟨rfl, rfl⟩ := wired.once old old' there there'
        exact ⟨rfl, rfl⟩

-- The way from the node to the sub-tree that is hung below it.
theorem way (hangs : Hangs r r' p node i name t t' sub) (wired : Wired r) (here : At r p lod t) (level : p.level = 4) {j : Nat}
    (octant : j < 8) : toChild r' p j = if j = i then some (rootOf r.currentId) else toChild r p j := by
  rw [childOf (hangs.own wired here), childOf here.found, level, hangs.index wired here octant, hangs.hung.subTrees]
  by_cases own : j = i
  · rw [if_pos ⟨rfl, own⟩, if_pos own, Option.bind_some, if_neg (Nat.lt_irrefl 4), putHere _ (hangs.within wired here)]
    rfl
  · rw [if_neg fun both => own both.2, if_neg own]
    cases childIndex t 4 p.index j with
    | none => rfl
    | some x => rw [Option.map_some, Option.bind_some, Option.bind_some, if_neg (Nat.lt_irrefl 4), if_neg (Nat.lt_irrefl 4),
        putMoved]

theorem nests (hangs : Hangs r r' p node i name t t' sub) (wired : Wired r) (here : At r p lod t) (level : p.level = 4)
    {data : Collection} {children : Nat → Octree} (nests : Nests r (.node data children) p) :
    Nests r' (.node data (Function.update children i (.tree (newTree r.currentId) emptyNode))) p := by
  have change := hangs.change wired here level
  obtain ⟨own, missing, below⟩ := nestsNode.mp nests
  refine nestsNode.mpr ⟨?_, fun j octant none_ => ?_, fun j octant c found => ?_⟩
  · rw [dataIn, here.found] at own
    rw [dataIn, hangs.own wired here]
    exact ((hungNodes hangs.hung p.level).2.2 p.index).trans own
  · rw [hangs.way wired here level octant] at none_
    split at none_
    · cases none_
    · rename_i apart
      rw [Function.update_of_ne apart]
      exact missing j octant none_
  · rw [hangs.way wired here level octant] at found
    split at found
    · rename_i new
      cases found
      rw [new, Function.update_self, level]
      refine ⟨rfl, rfl, rfl, rfl, ?_, emptyNests hangs.fresh hangs.blank.1 hangs.blank.2⟩
      change (r'.get r.currentId).map infoOf = _
      rw [hangs.fresh, Option.map_some, hangs.info]
    · rename_i apart
      rw [Function.update_of_ne apart]
      obtain ⟨kind, under⟩ := below j octant c found
      obtain ⟨lower, s, rfl, there⟩ := wired.childAt here octant found
      exact ⟨kind, change.nests wired here there (Or.inl (Nat.lt_succ_self lower)) under⟩

end Hangs

-- The tree that is made for the codes of a node's octant lies where the octant does.
theorem growHangs {w : Trees} {p : Position} {lod node i name morton : Nat} {t : Tree} (wired : Wired w.registry)
    (here : At w.registry p (lod + 1) t) (level : p.level = 4) (gap : Gap t 4 p.index node i)
    (named : (t.levels 4).nodeIds[p.index]? = some name) (min : maskMin lod morton = cellOf t name ||| i <<< (t.magnitude * 15)) :
    ∃ t' sub, Hangs w.registry (growTree w t p.tree p.index node i (placeOf t 4 p.index node i) morton).1.registry p node i
      name t t' sub ∧ (growTree w t p.tree p.index node i (placeOf t 4 p.index node i) morton).2 = w.registry.currentId := by
  have lods := here.lod
  have inside := getInside here.found
  have numbered := wired.numbered
  have sublod : magnitudeToLod (t.magnitude - 1) = lod := by
    rw [level] at lods
    unfold treeLevelToLod magnitudeToLod at lods
    unfold magnitudeToLod
    omega
  have positive : t.magnitude ≠ 0 := by
    rw [level] at lods
    unfold treeLevelToLod magnitudeToLod at lods
    omega
  let sub := treeInitializeSub t morton (blankTree w.registry.currentId)
  have formed : Formed sub := by
    refine rootFormed rfl rfl ?_
    change getName 0 0 (getChildMask (magnitudeToLod (t.magnitude - 1) + 1) morton) =
      getName 0 0 (getChildMask (magnitudeToLod (t.magnitude - 1) + 1) (maskMin (magnitudeToLod (t.magnitude - 1)) morton))
    rw [maskDigit]
  refine ⟨hangTree t p.index node i (placeOf t 4 p.index node i) w.registry.currentId, sub, ⟨fun id => ?_, ?_, rfl,
    hangHung t p.index node i _, gap, named, rfl, formed, Nat.succ_pred_eq_of_ne_zero positive, ?_, ⟨rfl, rfl⟩, rfl, rfl⟩, rfl⟩
  · have length : (treeCacheAddTree w.registry).1.data.length = w.registry.data.length + 1 := addLength w.registry
    change (((treeCacheAddTree w.registry).1.set p.tree (hangTree t p.index node i (placeOf t 4 p.index node i)
      w.registry.currentId)).set w.registry.currentId sub).get id = _
    have length' : ((treeCacheAddTree w.registry).1.set p.tree (hangTree t p.index node i (placeOf t 4 p.index node i)
      w.registry.currentId)).data.length = w.registry.data.length + 1 := (List.length_set ..).trans length
    rw [getSet (by omega), getSet (by omega)]
    split
    · rfl
    · rename_i apart
      split
      · rfl
      · by_cases before : id < w.registry.data.length
        · exact getAdd before
        · unfold Registry.get
          rw [List.getElem?_eq_none (by omega), List.getElem?_eq_none (by omega)]
  · change w.registry.currentId + 1 = ((((treeCacheAddTree w.registry).1.data.set _ _).set _ _)).length
    rw [List.length_set, List.length_set, numbered]
    exact (addLength w.registry).symm
  · change maskMin (magnitudeToLod (t.magnitude - 1)) morton = _
    rw [sublod]
    exact min

end Dewfall.ArrayHang
