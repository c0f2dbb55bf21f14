import Dewfall.Converter.ArrayForm
import Dewfall.Converter.TreeEnter

/-! The nested tree that the arrays of a registry stand for, and what a change of the arrays leaves of it. A place is
known by its tree, level and index; each level of detail lies one below the other, over the trees too. -/
namespace Dewfall.ArrayNest
open General.Blocks StorageMap PointSplitter MortonTree TreeReparent ArrayBuild ArrayForm
open TreeBuild (Octree TreeInfo newTree emptyNode)
open TreeInsert (Octree.isNode)
open LodWork (nodeAt dataAt setData treeLevelToLod nodeMinOf)

/-! ## Places -/

structure At (r : Registry) (q : Position) (lod : Nat) (t : Tree) : Prop where
  found : r.get q.tree = some t
  level : q.level < 5
  inside : q.index < (t.levels q.level).nodes.length
  lod : lod = treeLevelToLod t.magnitude q.level

-- A node's name tells where its cell begins.
def cellOf (t : Tree) (name : Nat) : Nat := nodeMinOf t ((name <<< 3) % 2 ^ 16)

structure Linked (r : Registry) (t : Tree) (x sub : Nat) (s : Tree) : Prop where
  found : r.get sub = some s
  magnitude : s.magnitude + 1 = t.magnitude
  min : ∀ k i name, childIndex t 4 k i = some x → i < 8 → (t.levels 4).nodeIds[k]? = some name →
    s.mortonMin = cellOf t name ||| i <<< (t.magnitude * 15)

structure Wired (r : Registry) : Prop where
  numbered : r.currentId = r.data.length
  own : ∀ {id t}, r.get id = some t → t.id = id
  formed : ∀ {id t}, r.get id = some t → Formed t
  links : ∀ {id x sub : Nat} {t : Tree}, r.get id = some t → t.subTrees[x]? = some sub → ∃ s, Linked r t x sub s
  once : ∀ {id id' x x' sub : Nat} {t t' : Tree}, r.get id = some t → r.get id' = some t' → t.subTrees[x]? = some sub →
    t'.subTrees[x']? = some sub → id = id' ∧ x = x'

theorem childOf {r : Registry} {q : Position} {t : Tree} (found : r.get q.tree = some t) (i : Nat) : toChild r q i =
    (childIndex t q.level q.index i).bind fun x =>
      if q.level < 4 then some ⟨q.tree, q.level + 1, x⟩ else t.subTrees[x]?.map rootOf := by
  unfold toChild childIndex nodeAt
  rw [found]
  dsimp only
  cases (t.levels q.level).nodes[q.index]? with
  | none => rfl
  | some node =>
    cases (t.levels q.level).skips[q.index]? with
    | none => rfl
    | some skips =>
      dsimp only
      split <;> rfl

theorem atUnique {r : Registry} {q : Position} {lod lod' : Nat} {t t' : Tree} (here : At r q lod t) (there : At r q lod' t') :
    lod = lod' ∧ t = t' := by
  obtain rfl : t = t' := Option.some.inj (here.found.symm.trans there.found)
  exact ⟨here.lod.trans there.lod.symm, rfl⟩

namespace Wired
variable {r : Registry} (wired : Wired r)
include wired

theorem childAt {q c : Position} {lod i : Nat} {t : Tree} (here : At r q lod t) (octant : i < 8)
    (child : toChild r q i = some c) : ∃ below s, lod = below + 1 ∧ At r c below s := by
  have formed := wired.formed here.found
  rw [childOf here.found] at child
  obtain ⟨x, index, place⟩ := Option.bind_eq_some_iff.mp child
  have inside := formed.childInside here.level octant index
  split at place
  · rename_i inner
    cases place
    refine ⟨lod - 1, t, ?_, here.found, Nat.succ_lt_succ inner, ?_, ?_⟩
    · have same := here.lod
      unfold treeLevelToLod magnitudeToLod at same
      omega
    · exact (formed.below inner).symm ▸ inside
    · rw [here.lod]
      exact Nat.sub_sub ..
  · rename_i last
    obtain ⟨sub, listed, rfl⟩ := Option.map_eq_some_iff.mp place
    obtain ⟨s, linked⟩ := wired.links here.found listed
    have magnitude := linked.magnitude
    have four : q.level = 4 := by
      have less := here.level
      omega
    have same := here.lod
    refine ⟨treeLevelToLod s.magnitude 0, s, ?_, linked.found, Nat.succ_pos 4, ?_, rfl⟩
    · rw [same, four]
      unfold treeLevelToLod magnitudeToLod
      omega
    · change 0 < (s.levels 0).nodes.length
      rw [(wired.formed linked.found).root]
      exact Nat.one_pos

theorem childOnce {q q' c : Position} {lod lod' i i' : Nat} {t t' : Tree} (here : At r q lod t) (there : At r q' lod' t')
    (octant : i < 8) (octant' : i' < 8) (child : toChild r q i = some c) (child' : toChild r q' i' = some c) :
    q = q' ∧ i = i' := by
  obtain ⟨tree, level, index⟩ := q
  obtain ⟨tree', level', index'⟩ := q'
  rw [childOf here.found] at child
  rw [childOf there.found] at child'
  obtain ⟨x, found, place⟩ := Option.bind_eq_some_iff.mp child
  obtain ⟨x', found', place'⟩ := Option.bind_eq_some_iff.mp child'
  dsimp only at *
  split at place
  · rename_i inner
    cases place
    split at place'
    · cases place'
      obtain rfl : t = t' := Option.some.inj (here.found.symm.trans there.found)
      obtain ⟨rfl, rfl⟩ := (wired.formed here.found).childUnique here.level octant octant' found found'
      exact ⟨rfl, rfl⟩
    · obtain ⟨sub, _, same⟩ := Option.map_eq_some_iff.mp place'
      cases same
  · rename_i last
    obtain ⟨sub, listed, rfl⟩ := Option.map_eq_some_iff.mp place
    split at place'
    · cases place'
    · rename_i last'
      obtain ⟨sub', listed', same⟩ := Option.map_eq_some_iff.mp place'
      cases same
      obtain ⟨rfl, rfl⟩ := wired.once here.found there.found listed listed'
      obtain rfl : t = t' := Option.some.inj (here.found.symm.trans there.found)
      have level4 := here.level
      have level4' := there.level
      dsimp only at level4 level4'
      obtain rfl : level = 4 := by omega
      obtain rfl : level' = 4 := by omega
      obtain ⟨rfl, rfl⟩ := (wired.formed here.found).childUnique (by decide) octant octant' found found'
      exact ⟨rfl, rfl⟩

theorem rootHere {id : Nat} {t : Tree} (found : r.get id = some t) : At r (rootOf id) t.lod t := by
  refine ⟨found, Nat.succ_pos 4, ?_, rfl⟩
  change 0 < (t.levels 0).nodes.length
  rw [(wired.formed found).root]
  exact Nat.one_pos

theorem rootAt {q : Position} {lod : Nat} {t : Tree} (here : At r q lod t) (first : q.level = 0) : q = rootOf q.tree := by
  have inside := here.inside
  rw [first, (wired.formed here.found).root] at inside
  obtain ⟨tree, level, index⟩ := q
  dsimp only at first inside
  obtain rfl : index = 0 := by omega
  rw [first]
  rfl

theorem bit {q : Position} {lod node i : Nat} {t : Tree} (here : At r q lod t) (node_ : nodeAt t q.level q.index = some node)
    (octant : i < 8) : node.testBit i = (toChild r q i).isSome := by
  have formed := wired.formed here.found
  rw [childOf here.found]
  by_cases there : node.testBit i = true
  · rw [there, formed.child here.level node_ there, Option.bind_some]
    split
    · rfl
    · rename_i last
      have level := here.level
      have four : q.level = 4 := by omega
      have inside := formed.childInside here.level octant (formed.child here.level node_ there)
      rw [four, ← formed.subTrees] at inside
      rw [four, List.getElem?_eq_getElem inside]
      rfl
  · have none_ : childIndex t q.level q.index i = none := by
      unfold childIndex
      rw [node_]
      cases (t.levels q.level).skips[q.index]? with
      | none => rfl
      | some skips => exact if_neg there
    rw [none_]
    exact Bool.eq_false_iff.mpr there

end Wired

/-! ## The nested tree -/

def infoOf (t : Tree) : TreeInfo := ⟨t.id, t.storageMap, t.isDirty, t.leavesCollapsed⟩

def dataIn (r : Registry) (q : Position) : Option Collection := (r.get q.tree).bind fun t => dataAt t q.level q.index

def Nests (r : Registry) : Octree → Position → Prop
  | .missing, _ => False
  | .tree info root, q => q.level = 0 ∧ q.index = 0 ∧ Octree.isNode root = true ∧
      (r.get q.tree).map infoOf = some info ∧ Nests r root q
  | .node data children, q => dataIn r q = some data ∧ ∀ i < 8, match toChild r q i with
      | none => children i = .missing
      | some c => Octree.isNode (children i) = decide (q.level < 4) ∧ Nests r (children i) c

structure NestsNode (r : Registry) (data : Collection) (children : Nat → Octree) (q : Position) : Prop where
  data : dataIn r q = some data
  missing : ∀ i < 8, toChild r q i = none → children i = .missing
  below : ∀ i < 8, ∀ c, toChild r q i = some c → Octree.isNode (children i) = decide (q.level < 4) ∧ Nests r (children i) c

theorem nestsNode {r : Registry} {data : Collection} {children : Nat → Octree} {q : Position} :
    Nests r (.node data children) q ↔ NestsNode r data children q := by
  constructor
  · rintro ⟨here, each⟩
    refine ⟨here, fun i octant none_ => ?_, fun i octant c child => ?_⟩
    · have own := each i octant
      rwa [none_] at own
    · have own := each i octant
      rwa [child] at own
  · rintro ⟨here, missing, below⟩
    refine ⟨here, fun i octant => ?_⟩
    cases child : toChild r q i with
    | none => exact missing i octant child
    | some c => exact below i octant c child

theorem nestsPresent {r : Registry} {n : Octree} {q : Position} (nests : Nests r n q) : n.present = true := by
  cases n with
  | missing => exact nests.elim
  | node data children => rfl
  | tree info root => rfl

-- Places move along with what they hold.
theorem nestsAlong {r r' : Registry} {S : Position → Prop} {move : Position → Position}
    (closed : ∀ q i c, S q → i < 8 → toChild r q i = some c → S c) (data : ∀ q, S q → dataIn r' (move q) = dataIn r q)
    (child : ∀ q, S q → ∀ i < 8, toChild r' (move q) i = (toChild r q i).map move)
    (level : ∀ q, (move q).level = q.level)
    (root : ∀ q, S q → q.level = 0 → q.index = 0 → move q = q ∧ (r'.get q.tree).map infoOf = (r.get q.tree).map infoOf)
    {n : Octree} {q : Position} (nests : Nests r n q) (at_ : S q) : Nests r' n (move q) := by
  induction n generalizing q with
  | missing => exact nests.elim
  | tree info top ih =>
    obtain ⟨first, start, node, here, below⟩ := nests
    obtain ⟨stays, same⟩ := root q at_ first start
    have moved_ := ih below at_
    rw [stays] at moved_ ⊢
    exact ⟨first, start, node, same.trans here, moved_⟩
  | node d children ih =>
    obtain ⟨here, missing, below⟩ := nestsNode.mp nests
    refine nestsNode.mpr ⟨(data q at_).trans here, fun i octant none_ => ?_, fun i octant c found => ?_⟩
    · rw [child q at_ i octant] at none_
      exact missing i octant (Option.map_eq_none_iff.mp none_)
    · rw [child q at_ i octant] at found
      obtain ⟨c', found', rfl⟩ := Option.map_eq_some_iff.mp found
      obtain ⟨kind, under⟩ := below i octant c' found'
      rw [level]
      exact ⟨kind, ih i under (closed q i c' at_ octant found')⟩

/-! ## What a change below a place leaves -/

structure SameTree (t t' : Tree) : Prop where
  id : t'.id = t.id
  magnitude : t'.magnitude = t.magnitude
  mortonMin : t'.mortonMin = t.mortonMin
  mortonMax : t'.mortonMax = t.mortonMax

theorem SameTree.refl (t : Tree) : SameTree t t := ⟨rfl, rfl, rfl, rfl⟩

theorem SameTree.trans {t u v : Tree} (first : SameTree t u) (second : SameTree u v) : SameTree t v :=
  ⟨second.id.trans first.id, second.magnitude.trans first.magnitude, second.mortonMin.trans first.mortonMin,
    second.mortonMax.trans first.mortonMax⟩

theorem SameTree.lod {t t' : Tree} (same : SameTree t t') : t'.lod = t.lod := by rw [Tree.lod, same.magnitude, Tree.lod]

def nameAt (t : Tree) (q : Position) : Option Nat := (t.levels q.level).nodeIds[q.index]?

theorem rootNamed {t : Tree} (formed : Formed t) (id : Nat) :
    nameAt t (rootOf id) = some (getName 0 0 (getChildMask (t.lod + 1) t.mortonMin)) := by
  change (t.levels 0).nodeIds[0]? = _
  rw [formed.rootName]
  rfl

def Under (r : Registry) (magnitude : Nat) : Prop := ∀ {id t}, r.get id = some t → t.magnitude ≤ magnitude

structure Framed (r r' : Registry) (p : Position) (lod : Nat) : Prop where
  under : ∀ {m}, Under r m → Under r' m
  trees : ∀ {id t}, r.get id = some t → ∃ t', r'.get id = some t' ∧ SameTree t t'
  stay : ∀ {q m t}, At r q m t → lod ≤ m → ∃ t', At r' q m t' ∧ nameAt t' q = nameAt t q
  above : ∀ {q m t}, At r q m t → lod < m → dataIn r' q = dataIn r q ∧ ∀ i < 8, toChild r' q i = toChild r q i
  infos : ∀ {id t}, r.get id = some t → id ≠ p.tree → lod ≤ t.lod → (r'.get id).map infoOf = some (infoOf t)
  beside : ∀ {n q t}, At r q lod t → q ≠ p → Nests r n q → Nests r' n q

theorem Framed.refl (r : Registry) (p : Position) (lod : Nat) : Framed r r p lod :=
  ⟨fun under => under, fun found => ⟨_, found, .refl _⟩, fun here _ => ⟨_, here, rfl⟩, fun _ _ => ⟨rfl, fun _ _ => rfl⟩,
    fun found _ _ => by rw [found, Option.map_some], fun _ _ nests => nests⟩

theorem Framed.trans {r r' r'' : Registry} {p : Position} {lod : Nat} (first : Framed r r' p lod)
    (second : Framed r' r'' p lod) : Framed r r'' p lod := by
  refine ⟨fun under => second.under (first.under under), fun here => ?_, fun here le => ?_, fun here less => ?_,
    fun {id t} here apart le => ?_, fun {n q t} here apart nests => ?_⟩
  · obtain ⟨t', here', same⟩ := first.trees here
    obtain ⟨t'', here'', same'⟩ := second.trees here'
    exact ⟨t'', here'', same.trans same'⟩
  · obtain ⟨t', here', named⟩ := first.stay here le
    obtain ⟨t'', here'', named'⟩ := second.stay here' le
    exact ⟨t'', here'', named'.trans named⟩
  · obtain ⟨data, child⟩ := first.above here less
    obtain ⟨t', here', _⟩ := first.stay here (Nat.le_of_lt less)
    obtain ⟨data', child'⟩ := second.above here' less
    exact ⟨data'.trans data, fun i octant => (child' i octant).trans (child i octant)⟩
  · have info := first.infos here apart le
    obtain ⟨t', here', same⟩ := first.trees here
    rw [here', Option.map_some] at info
    rw [second.infos here' apart (same.lod.symm ▸ le)]
    exact info
  · obtain ⟨t', here', _⟩ := first.stay here (Nat.le_refl _)
    exact second.beside here' apart (first.beside here apart nests)

-- What a change below a child leaves is left by it below the node.
theorem Framed.parent {r r' : Registry} {p c : Position} {lod i : Nat} {t : Tree} (wired : Wired r)
    (here : At r p (lod + 1) t) (octant : i < 8) (child : toChild r p i = some c) (framed : Framed r r' c lod) :
    Framed r r' p (lod + 1) := by
  obtain ⟨below, s, same, there⟩ := wired.childAt here octant child
  obtain rfl : lod = below := Nat.succ.inj same
  have rooted : c.tree = p.tree ∨ c = rootOf c.tree ∧ lod = s.lod := by
    rw [childOf here.found] at child
    obtain ⟨x, _, place⟩ := Option.bind_eq_some_iff.mp child
    split at place
    · cases place
      exact Or.inl rfl
    · obtain ⟨sub, _, rfl⟩ := Option.map_eq_some_iff.mp place
      exact Or.inr ⟨rfl, there.lod⟩
  have info : ∀ {id u}, r.get id = some u → id ≠ p.tree → lod + 1 ≤ u.lod → (r'.get id).map infoOf = some (infoOf u) := by
    intro id u found apart le
    refine framed.infos found (fun own => ?_) (by omega)
    rcases rooted with same | ⟨_, level⟩
    · exact apart (own.trans same)
    · rw [own, there.found] at found
      cases found
      omega
  refine ⟨framed.under, framed.trees, fun at_ le => framed.stay at_ (by omega), fun at_ less => framed.above at_ (by omega),
    info, fun {n q u} at_ apart nests => ?_⟩
  obtain ⟨dataSame, childSame⟩ := framed.above at_ (Nat.lt_succ_self lod)
  have node : ∀ data children, Nests r (.node data children) q → Nests r' (.node data children) q := by
    intro data children nests
    obtain ⟨own, missing, under⟩ := nestsNode.mp nests
    refine nestsNode.mpr ⟨dataSame.trans own, fun j octant' none_ => ?_, fun j octant' d found => ?_⟩
    · rw [childSame j octant'] at none_
      exact missing j octant' none_
    · rw [childSame j octant'] at found
      obtain ⟨kind, deeper⟩ := under j octant' d found
      obtain ⟨_, v, level, at'⟩ := wired.childAt at_ octant' found
      cases level
      refine ⟨kind, framed.beside at' (fun equal => apart ?_) deeper⟩
      rw [equal] at found
      exact (wired.childOnce at_ here octant' octant found child).1
  cases n with
  | missing => exact nests.elim
  | node data children => exact node data children nests
  | tree top root =>
    obtain ⟨first, start, isNode, known, under⟩ := nests
    refine ⟨first, start, isNode, ?_, ?_⟩
    · rw [at_.found, Option.map_some] at known
      rw [← known]
      have level := at_.lod
      rw [first] at level
      refine info at_.found (fun own => apart ?_) (Nat.le_of_eq level)
      have tree : t = u := Option.some.inj ((own ▸ here.found).symm.trans at_.found)
      subst tree
      have low := here.level
      have zero : p.level = 0 := by
        have level' := here.lod
        unfold treeLevelToLod magnitudeToLod at level level'
        omega
      rw [wired.rootAt here zero, wired.rootAt at_ first, own]
    · cases root with
      | missing => exact under.elim
      | node data children => exact node data children under
      | tree _ _ => cases isNode

end Dewfall.ArrayNest
