import Dewfall.Converter.LodSchedule
import Dewfall.General.History

/-! What a pass publishes: a level's units join the maps of their trees before anything above reads them, in every
order of completions, and a node is worked on once. What a worker makes of its children is not looked at. -/
namespace Dewfall.LodPublish
open General General.History General.Transition StorageMap PointSplitter TreeReparent LodWork LodGather LodPass LodSchedule

/-! ## A level is published -/

-- A node that was published has its one unit, which the map knows.
inductive Told (t' : Tree) : Option Collection → Option Collection → Prop where
  | same (d) : Told t' d d
  | told {d d' u u'} (one : d.data = [u]) (one' : d'.data = [u']) (name : u'.inputId = u.inputId)
    (known : t'.storageMap.contains u.inputId) : Told t' (some d) (some d')

structure Adjusted (t t' : Tree) : Prop extends Same t t' where
  known : ∀ {id}, t.storageMap.contains id → t'.storageMap.contains id
  data : ∀ l k, nodeAt t l k = some 0 ∧ dataAt t' l k = dataAt t l k ∨ nodeAt t l k ≠ some 0 ∧
    Told t' (dataAt t l k) (dataAt t' l k)

theorem Told.mono {t t' : Tree} {a b : Option Collection} (told : Told t a b)
    (known : ∀ {id}, t.storageMap.contains id → t'.storageMap.contains id) : Told t' a b := by
  cases told with
  | same => exact .same _
  | told one one' name here => exact .told one one' name (known here)

theorem Told.trans {t : Tree} {a b c : Option Collection} (first : Told t a b) (then_ : Told t b c) : Told t a c := by
  cases first with
  | same => exact then_
  | told one one' name here =>
    cases then_ with
    | same => exact .told one one' name here
    | told two two' name' _ =>
      rw [one'] at two
      cases two
      exact .told one two' (name'.trans name) here

theorem Adjusted.refl (t : Tree) : Adjusted t t := by
  refine ⟨Same.refl t, fun known => known, fun l k => ?_⟩
  by_cases leaf : nodeAt t l k = some 0
  · exact Or.inl ⟨leaf, rfl⟩
  · exact Or.inr ⟨leaf, .same _⟩

theorem Adjusted.trans {t u v : Tree} (first : Adjusted t u) (then_ : Adjusted u v) : Adjusted t v := by
  refine ⟨first.toSame.trans then_.toSame, fun known => then_.known (first.known known), fun l k => ?_⟩
  have second := then_.data l k
  rw [first.toSame.node] at second
  rcases first.data l k with ⟨leaf, same⟩ | ⟨inner, told⟩
  · rcases second with ⟨_, same'⟩ | ⟨inner, _⟩
    · exact Or.inl ⟨leaf, same'.trans same⟩
    · exact absurd leaf inner
  · rcases second with ⟨leaf, _⟩ | ⟨_, told'⟩
    · exact absurd leaf inner
    · exact Or.inr ⟨inner, (told.mono then_.known).trans told'⟩

theorem Adjusted.item {t t' : Tree} (adjusted : Adjusted t t') {level k : Nat} {n : Node} (item : Item t level k n) :
    Item t' level k n := by
  obtain ⟨node, at_, some_⟩ := item.inner
  obtain ⟨d, s, here, one, name⟩ := item.unit
  refine ⟨⟨node, by rw [adjusted.toSame.node, at_], some_⟩, by rw [adjusted.nodeIds, item.id],
    by rw [adjusted.skips]; exact item.counted, ?_⟩
  rcases adjusted.data level k with ⟨_, same⟩ | ⟨_, told⟩
  · exact ⟨d, s, by rw [same, here], one, name⟩
  · rw [here] at told
    generalize dataAt t' level k = later at told ⊢
    cases told with
    | same => exact ⟨d, s, rfl, one, name⟩
    | told one₁ one₂ name' _ =>
      rw [one] at one₁
      cases one₁
      exact ⟨_, _, rfl, one₂, name'.trans name⟩

theorem Adjusted.plain {t t' : Tree} (adjusted : Adjusted t t') (plain : Plain t) : Plain t' := by
  refine ⟨fun {l k d} deep zero here s mem => ?_, fun {l k node d} deep inner some_ here => ?_⟩
  · rw [adjusted.toSame.node] at zero
    rcases adjusted.data l k with ⟨_, same⟩ | ⟨inner, _⟩
    · rw [same] at here
      exact adjusted.known (plain.leaf deep zero here s mem)
    · exact absurd zero inner
  · rw [adjusted.toSame.node] at inner
    have old {d : Collection} (before : dataAt t l k = some d) : (d.data = [] ∧ d.pointCount = 0) ∨
        ∃ s, d.data = [s] ∧ (0 < d.pointCount → t'.storageMap.contains s.inputId) := by
      rcases plain.inner deep inner some_ before with none_ | ⟨s, one, known⟩
      · exact Or.inl none_
      · exact Or.inr ⟨s, one, fun counted => adjusted.known (known counted)⟩
    rcases adjusted.data l k with ⟨_, same⟩ | ⟨_, told⟩
    · rw [same] at here
      exact old here
    · rw [here] at told
      generalize before : dataAt t l k = was at told
      cases told with
      | same => exact old before
      | told one one' name known =>
        refine Or.inr ⟨_, one', fun _ => ?_⟩
        rw [name]
        exact known

theorem Adjusted.there {t t' : Tree} (adjusted : Adjusted t t') {l k : Nat} {d : Collection} (here : dataAt t l k = some d) :
    ∃ d', dataAt t' l k = some d' := by
  rcases adjusted.data l k with ⟨_, same⟩ | ⟨_, told⟩
  · exact ⟨d, by rw [same, here]⟩
  · rw [here] at told
    generalize dataAt t' l k = later at told ⊢
    cases told with
    | same => exact ⟨d, rfl⟩
    | told => exact ⟨_, rfl⟩

theorem Adjusted.good {r r' : Registry} (moved : Moved Adjusted r r') (good : Good r) : Good r' := by
  intro id t' here'
  obtain ⟨t, here, adjusted⟩ := moved.before here'
  obtain ⟨plain, shaped⟩ := good here
  refine ⟨adjusted.plain plain, shaped.kept adjusted.toSame adjusted.there fun there_ => ?_⟩
  obtain ⟨sub', there', own⟩ := moved.later there_
  exact ⟨sub', there', own.toSame⟩

theorem holdsAdjusted {max : Nat} {r r' : Registry} (moved : Moved Adjusted r r') {treeId : Nat} {id : InputId}
    (holds : Holds max r treeId id) : Holds max r' treeId id := by
  obtain ⟨t, here, below, known⟩ := holds
  obtain ⟨t', here', own⟩ := moved.later here
  exact ⟨t', here', by rw [treeMaxSame own.toSame]; exact below, own.known known⟩

theorem addedContains (m : InputStorageMap) (id : InputId) (attributesId : Nat) (storage : List Location) (other : InputId) :
    (m.addStorage id attributesId storage).contains other = (decide (other = id) || m.contains other) := by
  unfold InputStorageMap.addStorage
  split
  all_goals
    unfold InputStorageMap.contains
    dsimp only
    by_cases same : other = id
    · subst same
      rw [Function.update_self]
      simp
    · rw [Function.update_of_ne same]
      simp [same]

-- Names that ascend are found where they are.
theorem cursorFinds {ids : List Nat} (ascending : ids.Pairwise (· < ·)) {k id start : Nat} (here : ids[k]? = some id)
    (before : start ≤ k) : start + ((ids.drop start).takeWhile (· < id)).length = k := by
  obtain ⟨short, at_⟩ := List.getElem?_eq_some_iff.mp here
  have length : ((ids.drop start).takeWhile (· < id)).length = k - start := by
    have split_ : ids.drop start = (ids.drop start).take (k - start) ++ id :: (ids.drop start).drop (k - start + 1) := by
      have inside : k - start < (ids.drop start).length := by rw [List.length_drop]; omega
      have own : (ids.drop start)[k - start] = id := by
        rw [List.getElem_drop, ← at_]
        congr 1
        omega
      rw [← own, ← List.drop_eq_getElem_cons inside, List.take_append_drop]
    rw [split_, List.takeWhile_append_of_pos]
    · rw [List.takeWhile_cons_of_neg (by simp), List.append_nil, List.length_take, List.length_drop]
      omega
    · intro x mem
      obtain ⟨i, bound, rfl⟩ := List.getElem_of_mem mem
      rw [List.length_take, List.length_drop] at bound
      rw [List.getElem_take, List.getElem_drop, ← at_]
      exact decide_eq_true (List.pairwise_iff_getElem.mp ascending (start + i) k (by omega) short (by omega))
  omega

theorem adjustNodeRight {t : Tree} {level k cursor i : Nat} {n : Node} (generated : Nat → Generated)
    (ascending : (t.levels level).nodeIds.Pairwise (· < ·)) (item : Item t level k n) (before : cursor ≤ k) :
    ∃ t', adjustNode level generated (t, cursor) (n, i) = some (t', k) ∧ Adjusted t t' ∧
      t'.storageMap.contains n.storageName := by
  obtain ⟨node, at_, some_⟩ := item.inner
  obtain ⟨d, u, here, one, name⟩ := item.unit
  unfold adjustNode
  dsimp only
  rw [cursorFinds ascending item.id before, item.id, here]
  dsimp only
  rw [one]
  dsimp only
  rw [if_pos rfl]
  refine ⟨_, rfl, ⟨?_, fun known => ?_, fun l j => ?_⟩, ?_⟩
  · have same := setDataSame t level k { d with
      pointCount := (generated i).pointCount, min := (generated i).min, max := (generated i).max
      data := [⟨u.inputId, 0, (generated i).pointCount⟩] }
    exact ⟨same.nodes, same.skips, same.nodeIds, same.magnitude, same.mortonMin, same.subTrees⟩
  · dsimp only
    rw [addedContains]
    exact Bool.or_eq_true_iff.mpr (Or.inr known)
  · have place := setDataAt t level k { d with
      pointCount := (generated i).pointCount, min := (generated i).min, max := (generated i).max
      data := [⟨u.inputId, 0, (generated i).pointCount⟩] } l j
    by_cases own : l = level ∧ j = k
    · obtain ⟨rfl, rfl⟩ := own
      rw [if_pos ⟨rfl, rfl⟩, here] at place
      refine Or.inr ⟨fun zero => some_ (Option.some.inj (at_.symm.trans zero)), ?_⟩
      rw [here]
      refine (show dataAt _ l j = _ from place) ▸ Told.told one rfl rfl ?_
      dsimp only
      rw [addedContains, name]
      simp
    · rw [if_neg own] at place
      have same : dataAt _ l j = dataAt t l j := place
      by_cases leaf : nodeAt t l j = some 0
      · exact Or.inl ⟨leaf, same⟩
      · exact Or.inr ⟨leaf, same ▸ .same _⟩
  · dsimp only
    rw [addedContains]
    simp

theorem adjustNodesRight {level : Nat} (generated : Nat → Generated) {positions : List Nat} {nodes : List Node} {t : Tree}
    (cursor start : Nat) (ascending : (t.levels level).nodeIds.Pairwise (· < ·))
    (items : List.Forall₂ (Item t level) positions nodes) (order : positions.Pairwise (· < ·))
    (before : ∀ k ∈ positions, cursor ≤ k) : ∃ s, (nodes.zipIdx start).foldlM (adjustNode level generated) (t, cursor) = some s ∧
      Adjusted t s.1 ∧ ∀ n ∈ nodes, s.1.storageMap.contains n.storageName := by
  induction nodes generalizing positions t cursor start with
  | nil => exact ⟨(t, cursor), rfl, Adjusted.refl t, fun _ mem => (nomatch mem)⟩
  | cons n rest ih =>
    cases items with
    | @cons k _ ks _ item items =>
      rw [List.pairwise_cons] at order
      obtain ⟨t', step, adjusted, known⟩ := adjustNodeRight (i := start) generated ascending item
        (before k List.mem_cons_self)
      obtain ⟨s, folded, adjusted', known'⟩ := ih k (start + 1) (by rw [adjusted.nodeIds]; exact ascending)
        (items.imp fun _ _ own => adjusted.item own) order.2 fun j mem => Nat.le_of_lt (order.1 j mem)
      refine ⟨s, ?_, adjusted.trans adjusted', fun m mem => ?_⟩
      · rw [List.zipIdx_cons, List.foldlM_cons, step]
        exact folded
      · rcases List.mem_cons.mp mem with rfl | mem
        · exact adjusted'.known known
        · exact known' m mem

-- Publishing never fails, and the map knows every unit of the level after it.
theorem adjustRight {max : Nat} {r : Registry} {run : Run} {level : Nat} {t : Tree} {positions : List Nat} (good : Good r)
    (deep : level < 5) (here : r.get run.work.treeId = some t) (inside : treeMax t < max)
    (items : List.Forall₂ (Item t level) positions (run.work.nodes level))
    (order : positions.Pairwise (· < ·)) : ∃ r', adjustTreeAfterLod r run level = some r' ∧ Moved Adjusted r r' ∧
      ∀ n ∈ run.work.nodes level, Holds max r' run.work.treeId n.storageName := by
  unfold adjustTreeAfterLod
  split
  · rename_i none_
    rw [none_]
    exact ⟨r, rfl, Moved.refl Adjusted.refl r, fun _ mem => (nomatch mem)⟩
  · rw [here]
    dsimp only
    have shaped := (good here).2
    obtain ⟨s, folded, adjusted, known⟩ := adjustNodesRight (t := { t with isDirty := true }) run.generated
      0 0 (shaped.ascending level deep) (items.imp fun _ _ own => ⟨own.inner, own.id, own.counted, own.unit⟩) order
      fun _ _ => Nat.zero_le _
    rw [folded]
    have whole : Adjusted t s.1 :=
      ⟨⟨adjusted.nodes, adjusted.skips, adjusted.nodeIds, adjusted.magnitude, adjusted.mortonMin, adjusted.subTrees⟩,
        adjusted.known, adjusted.data⟩
    refine ⟨_, rfl, setMoved Adjusted.refl here whole, fun n mem => ⟨s.1, ?_, ?_, known n mem⟩⟩
    · rw [getSet (getInside here), if_pos rfl]
    · rw [treeMaxSame whole.toSame]
      exact inside

/-! ## The trees while a pass runs -/

-- A level the run has left behind.
def Past (run : Run) (l : Nat) : Prop := ∀ level, run.level = some level → level < l

structure RunData (max : Nat) (r : Registry) (ahead : List TreeWork) (started : Bool) (run : Run) : Prop where
  items : ∃ (t : Tree) (positions : Nat → List Nat), r.get run.work.treeId = some t ∧ treeMax t < max ∧ ∀ l ≤ 4,
    List.Forall₂ (Item t l) (positions l) (run.work.nodes l) ∧ (positions l).Pairwise (· < ·)
  due : ∀ l ≤ 4, ∀ n ∈ run.work.nodes l, ∀ c ∈ n.childData, ∀ u ∈ c.data.data, Holds max r c.tree u.inputId ∨
    (l < 4 ∧ c.tree = run.work.treeId ∧ ∃ b ∈ run.work.nodes (l + 1), b.storageName = u.inputId) ∨
    ∃ v ∈ ahead, v.treeId = c.tree ∧ ∃ b ∈ v.nodes 0, b.storageName = u.inputId
  published : started = true → ∀ l ≤ 4, Past run l → ∀ n ∈ run.work.nodes l, Holds max r run.work.treeId n.storageName

def worksOf (b : Batch) : List TreeWork := b.runs.map Run.work

def QueueData (max : Nat) (r : Registry) : List TreeWork → List Batch → Prop
  | _, [] => True
  | ahead, b :: rest => (∀ run ∈ b.runs, RunData max r ahead b.started run) ∧ QueueData max r (ahead ++ worksOf b) rest

theorem RunData.moved {max : Nat} {r r' : Registry} {ahead : List TreeWork} {started : Bool} {run : Run}
    (data : RunData max r ahead started run) (moved : Moved Adjusted r r') : RunData max r' ahead started run := by
  obtain ⟨t, positions, here, below, items⟩ := data.items
  obtain ⟨t', here', adjusted⟩ := moved.later here
  rw [← treeMaxSame adjusted.toSame] at below
  refine ⟨⟨t', positions, here', below,
      fun l under => ⟨(items l under).1.imp fun _ _ own => adjusted.item own, (items l under).2⟩⟩,
    fun l under n mem c inside u own => ?_,
    fun on l under past n mem => holdsAdjusted moved (data.published on l under past n mem)⟩
  exact (data.due l under n mem c inside u own).imp_left (holdsAdjusted moved)

theorem QueueData.each {max : Nat} {r r' : Registry}
    (step : ∀ {ahead started run}, RunData max r ahead started run → RunData max r' ahead started run)
    {batches : List Batch} {ahead : List TreeWork} (data : QueueData max r ahead batches) :
    QueueData max r' ahead batches := by
  induction batches generalizing ahead with
  | nil => trivial
  | cons b rest ih => exact ⟨fun run mem => step (data.1 run mem), ih data.2⟩

theorem QueueData.moved {max : Nat} {r r' : Registry} (moved : Moved Adjusted r r') {batches : List Batch}
    {ahead : List TreeWork} (data : QueueData max r ahead batches) : QueueData max r' ahead batches :=
  data.each fun own => own.moved moved

-- The trees of a pass lie below its target.
theorem holdsSpared {max : Nat} {r r' : Registry} (spared : Spared max r r') {treeId : Nat} {id : InputId}
    (holds : Holds max r treeId id) : Holds max r' treeId id := by
  obtain ⟨t, here, below, known⟩ := holds
  obtain ⟨t', here', kept⟩ := spared here below
  refine ⟨t', here', by rw [kept.treeMax]; exact below, ?_⟩
  rw [InputStorageMap.contains, kept.map]
  exact known

theorem RunData.spared {max : Nat} {r r' : Registry} {ahead : List TreeWork} {started : Bool} {run : Run}
    (data : RunData max r ahead started run) (spared : Spared max r r') : RunData max r' ahead started run := by
  obtain ⟨t, positions, here, below, items⟩ := data.items
  obtain ⟨t', here', kept⟩ := spared here below
  refine ⟨⟨t', positions, here', by rw [kept.treeMax]; exact below,
      fun l under => ⟨(items l under).1.imp fun _ _ own => kept.item own, (items l under).2⟩⟩,
    fun l under n mem c inside u own => (data.due l under n mem c inside u own).imp_left (holdsSpared spared),
    fun on l under past n mem => holdsSpared spared (data.published on l under past n mem)⟩

-- What an earlier batch has made need not be waited for.
theorem QueueData.drop {max : Nat} {r : Registry} {gone : List TreeWork}
    (made : ∀ v ∈ gone, ∀ b ∈ v.nodes 0, Holds max r v.treeId b.storageName) {batches : List Batch}
    {ahead : List TreeWork} (data : QueueData max r (gone ++ ahead) batches) : QueueData max r ahead batches := by
  induction batches generalizing ahead with
  | nil => trivial
  | cons b rest ih =>
    refine ⟨fun run mem => ?_, ih (by rw [← List.append_assoc]; exact data.2)⟩
    have own := data.1 run mem
    refine ⟨own.items, fun l under n mem c inside u there_ => ?_, own.published⟩
    rcases own.due l under n mem c inside u there_ with holds | next | ⟨v, before, tree, b', root, name⟩
    · exact Or.inl holds
    · exact Or.inr (Or.inl next)
    · rcases List.mem_append.mp before with old | still
      · refine Or.inl ?_
        have holds := made v old b' root
        rwa [name, tree] at holds
      · exact Or.inr (Or.inr ⟨v, still, tree, b', root, name⟩)

structure Data (s : State) : Prop where
  good : Good s.registry
  queue : QueueData s.lodComplete s.registry [] s.batches

-- A run changes its place in the levels only.
theorem QueueData.set {max : Nat} {r : Registry} {ahead : List TreeWork} {b b' : Batch} {rest : List Batch} {i : Nat}
    {run run' : Run} (data : QueueData max r ahead (b :: rest)) (at_ : b.runs[i]? = some run) (runs : b'.runs = b.runs.set i run')
    (started : b'.started = b.started) (work : run'.work = run.work)
    (published : b.started = true → ∀ l ≤ 4, Past run' l → ∀ n ∈ run.work.nodes l,
      Holds max r run.work.treeId n.storageName) :
    QueueData max r ahead (b' :: rest) := by
  have same : worksOf b' = worksOf b := by
    unfold worksOf
    rw [runs, List.map_set, work]
    refine List.ext_getElem? fun j => ?_
    by_cases here : i = j
    · subst here
      have short : i < (b.runs.map Run.work).length := by
        rw [List.length_map]
        exact (List.getElem?_eq_some_iff.mp at_).1
      rw [List.getElem?_set_self short, List.getElem?_map, at_]
      rfl
    · rw [List.getElem?_set_ne here]
  refine ⟨fun r' mem => ?_, by rw [same]; exact data.2⟩
  rw [runs] at mem
  rw [started]
  rcases List.mem_or_eq_of_mem_set mem with mem | rfl
  · exact data.1 r' mem
  · have own := data.1 run (List.mem_of_getElem? at_)
    refine ⟨by rw [work]; exact own.items, by rw [work]; exact own.due, fun on l under past n mem => ?_⟩
    rw [work] at mem ⊢
    exact published on l under past n mem

theorem QueueData.start {max : Nat} {r : Registry} {ahead : List TreeWork} {b : Batch} {rest : List Batch}
    (data : QueueData max r ahead (b :: rest)) : QueueData max r ahead ((if b.started then b else startBatch b) :: rest) := by
  split
  · exact data
  · have same : worksOf (startBatch b) = worksOf b := by
      unfold worksOf startBatch
      rw [List.map_map]
      rfl
    refine ⟨fun run mem => ?_, by rw [same]; exact data.2⟩
    unfold startBatch at mem
    obtain ⟨old, inside, rfl⟩ := List.mem_map.mp mem
    have own := data.1 old inside
    refine ⟨own.items, own.due, fun _ l under past => ?_⟩
    have five := past 5 rfl
    omega

theorem frontData {s : State} {batches : List Batch} (good : Good s.registry)
    (data : QueueData s.lodComplete s.registry [] batches) :
    Data (frontBatch s batches) := by
  cases batches with
  | nil => exact ⟨good, trivial⟩
  | cons b rest => exact ⟨good, data.start⟩

-- All the units a node reads are there once the levels under it are published.
theorem infoRead {max : Nat} {r : Registry} {n : Node}
    (known : ∀ c ∈ n.childData, ∀ u ∈ c.data.data, Holds max r c.tree u.inputId) :
    ∃ info, getStorageInfo r n = some info := by
  have one (tree : Nat) (info : ChildStorageInfo) (u : Subset) (holds : Holds max r tree u.inputId) :
      ∃ info', addInfo r tree info u = some info' := by
    obtain ⟨t, here, _, contains⟩ := holds
    unfold addInfo
    dsimp only
    split
    · rw [here]
      obtain ⟨value, at_⟩ := Option.isSome_iff_exists.mp contains
      dsimp only
      rw [at_]
      exact ⟨_, rfl⟩
    · exact ⟨_, rfl⟩
  have units (tree : Nat) (us : List Subset) (info : ChildStorageInfo) (holds : ∀ u ∈ us, Holds max r tree u.inputId) :
      ∃ info', us.foldlM (addInfo r tree) info = some info' := by
    induction us generalizing info with
    | nil => exact ⟨info, rfl⟩
    | cons u rest ih =>
      obtain ⟨info', step⟩ := one tree info u (holds u List.mem_cons_self)
      obtain ⟨info'', later⟩ := ih info' fun v mem => holds v (List.mem_cons_of_mem _ mem)
      exact ⟨info'', by rw [List.foldlM_cons, step]; exact later⟩
  unfold getStorageInfo
  generalize (fun _ => none : ChildStorageInfo) = info
  revert info
  generalize n.childData = list at known
  intro info
  induction list generalizing info with
  | nil => exact ⟨info, rfl⟩
  | cons c rest ih =>
    obtain ⟨info', step⟩ := units c.tree c.data.data info (known c List.mem_cons_self)
    obtain ⟨info'', later⟩ := ih (fun d mem => known d (List.mem_cons_of_mem _ mem)) info'
    exact ⟨info'', by rw [List.foldlM_cons, step]; exact later⟩

section
variable {s s' : State} {b : Batch} {rest : List Batch} {i level : Nat} {run : Run}

theorem publishes (data : Data s) (front : s.batches = b :: rest) (right : Running s b) (at_ : b.runs[i]? = some run)
    (live : run.level = some level) : ∃ r',
    (if 0 < run.inFlight then adjustTreeAfterLod s.registry run level else some s.registry) = some r' ∧
      Moved Adjusted s.registry r' ∧ (level < 5 →
        ∀ n ∈ run.work.nodes level, Holds s.lodComplete r' run.work.treeId n.storageName) := by
  have own := right.runs i run at_
  unfold RunRight at own
  rw [live] at own
  rcases own with ⟨five, none_, _⟩ | work
  · rw [none_, if_neg (Nat.lt_irrefl 0)]
    exact ⟨s.registry, rfl, Moved.refl Adjusted.refl _, fun below => absurd below (by omega)⟩
  · rw [if_pos work.some_]
    have queue := data.queue
    rw [front] at queue
    obtain ⟨t, positions, here, below, items⟩ := (queue.1 run (List.mem_of_getElem? at_)).items
    have inside := work.inside
    obtain ⟨own, order⟩ := items level (by omega)
    obtain ⟨r', done, moved, known⟩ := adjustRight data.good (by omega) here below own order
    exact ⟨r', done, moved, fun _ => known⟩

-- Between a level and the next one with nodes there is nothing to publish.
theorem turnData (data : Data s) (front : s.batches = b :: rest) (started : b.started = true) (right : Running s b)
    (turned : Turned s b rest s') : Data s' := by
  have queue := data.queue
  rw [front] at queue
  cases turned with
  | skip => exact ⟨data.good, data.queue⟩
  | pause => exact ⟨data.good, data.queue⟩
  | last => exact ⟨data.good, data.queue⟩
  | pop _ _ none_ =>
    have behind : QueueData s.lodComplete s.registry (worksOf b ++ []) rest := by
      rw [List.append_nil]
      exact queue.2
    refine frontData data.good (QueueData.drop (fun v mem b' inside => ?_) behind)
    obtain ⟨run, there_, rfl⟩ := List.mem_map.mp mem
    have all := right.active
    rw [none_] at all
    have gone := Option.not_isSome_iff_eq_none.mp (List.countP_eq_zero.mp all.symm run there_)
    refine (queue.1 run there_).published started 0 (by omega) (fun level live => ?_) b' inside
    rw [gone] at live
    cases live
  | @retire i run level registry log loop at_ published last =>
    obtain ⟨r', done, moved, known⟩ := publishes data front right at_ published.live
    cases done.symm.trans published.adjusted
    refine ⟨Adjusted.good moved data.good, QueueData.set (queue.moved moved) at_ rfl rfl rfl fun _ l under _ n mem => ?_⟩
    rcases Nat.lt_trichotomy l level with less | rfl | more
    · rw [descendNone last l less] at mem
      cases mem
    · exact known (by omega) n mem
    · refine holdsAdjusted moved ((queue.1 run (List.mem_of_getElem? at_)).published started l under (fun level' live => ?_) n mem)
      rw [published.live] at live
      cases live
      exact more
  | @lower i run level registry log next loop at_ published more =>
    obtain ⟨r', done, moved, known⟩ := publishes data front right at_ published.live
    cases done.symm.trans published.adjusted
    obtain ⟨_, _, between⟩ := descendBelow more
    refine ⟨Adjusted.good moved data.good, QueueData.set (queue.moved moved) at_ rfl rfl rfl fun _ l under past n mem => ?_⟩
    have above := past next rfl
    rcases Nat.lt_trichotomy l level with less | rfl | more
    · rw [between l above less] at mem
      cases mem
    · exact known (by omega) n mem
    · refine holdsAdjusted moved ((queue.1 run (List.mem_of_getElem? at_)).published started l under (fun level' live => ?_) n mem)
      rw [published.live] at live
      cases live
      exact more
  | @start i k run level node info loop at_ live here read =>
    refine ⟨data.good, QueueData.set queue at_ rfl rfl rfl fun on l under past n mem => ?_⟩
    exact (queue.1 run (List.mem_of_getElem? at_)).published on l under past n mem

-- A turn never meets a missing unit or a missing name.
theorem turnSome (data : Data s) (front : s.batches = b :: rest) (started : b.started = true) (right : Running s b)
    (can : s.loop ≠ .idle) : ∃ s', turn s = some s' := by
  have queue := data.queue
  rw [front] at queue
  unfold turn
  rw [front]
  dsimp only
  cases loop : s.loop with
  | idle => exact absurd loop can
  | sweep i =>
    dsimp only
    cases at_ : b.runs[i]? with
    | none =>
      dsimp only
      split
      · exact ⟨_, rfl⟩
      · exact ⟨_, rfl⟩
    | some run =>
      dsimp only
      unfold advanceTree
      cases live : run.level with
      | none => exact ⟨_, rfl⟩
      | some level =>
        dsimp only
        split
        · exact ⟨_, rfl⟩
        · obtain ⟨r', done, _⟩ := publishes data front right at_ live
          rw [done]
          dsimp only
          split
          · exact ⟨_, rfl⟩
          · exact ⟨_, rfl⟩
  | enqueue i k =>
    dsimp only
    have bound := right.loop
    unfold LoopRight at bound
    rw [loop] at bound
    obtain ⟨run, level, at_, live, inside, _⟩ := bound
    rw [at_]
    dsimp only
    rw [live]
    dsimp only
    unfold enqueueLod
    cases here : (run.work.nodes level)[k]? with
    | none => exact ⟨_, rfl⟩
    | some node =>
      have own := queue.1 run (List.mem_of_getElem? at_)
      have known : ∀ c ∈ node.childData, ∀ u ∈ c.data.data, Holds s.lodComplete s.registry c.tree u.inputId := by
        intro c mem u there_
        rcases own.due level (by omega) node (List.mem_of_getElem? here) c mem u there_ with
          holds | ⟨below, tree, b', next, name⟩ | ⟨v, none_, _⟩
        · exact holds
        · have holds := own.published started (level + 1) (by omega) (fun level' live' => by
            rw [live] at live'
            cases live'
            omega) b' next
          rwa [name, ← tree] at holds
        · cases none_
      obtain ⟨info, read⟩ := infoRead known
      dsimp only
      rw [read]
      exact ⟨_, rfl⟩

end

/-! ## A new pass -/

-- Smaller trees are in earlier groups.
def Ascends (works : List TreeWork) : List TreeWork → List (List TreeWork) → Prop
  | _, [] => True
  | ahead, group :: rest => (∀ w ∈ group, w ∈ works ∧ ∀ v ∈ works, v.magnitude < w.magnitude → v ∈ ahead) ∧
      Ascends works (ahead ++ group) rest

theorem smallerAhead {works ahead group rest : List TreeWork} {level : Nat} (whole : works = ahead ++ (group ++ rest))
    (sorted : works.Pairwise fun v w => v.magnitude ≤ w.magnitude) (one : ∀ w ∈ group, w.magnitude = level) :
    ∀ w ∈ group, w ∈ works ∧ ∀ v ∈ works, v.magnitude < w.magnitude → v ∈ ahead := by
  intro w mem
  refine ⟨by rw [whole]; simp [mem], fun v inside less => ?_⟩
  rw [whole] at inside sorted
  rcases List.mem_append.mp inside with before | after
  · exact before
  · rcases List.mem_append.mp after with same | past
    · have equal := (one v same).trans (one w mem).symm
      omega
    · have order := (List.pairwise_append.mp (List.pairwise_append.mp sorted).2.1).2.2 w mem v past
      omega

theorem batchesAscend {works : List TreeWork} (sorted : works.Pairwise fun v w => v.magnitude ≤ w.magnitude)
    {rest : List TreeWork} {level : Nat} {ahead group : List TreeWork} (whole : works = ahead ++ (group ++ rest))
    (one : ∀ w ∈ group, w.magnitude = level) : Ascends works ahead (batchesFrom level group rest) := by
  induction rest generalizing level ahead group with
  | nil =>
    unfold batchesFrom
    split
    · trivial
    · exact ⟨smallerAhead whole sorted one, trivial⟩
  | cons w rest ih =>
    unfold batchesFrom
    split
    · exact ⟨smallerAhead whole sorted one, ih (by rw [whole]; simp) fun v mem => by rw [List.mem_singleton.mp mem]⟩
    · rename_i same
      refine ih (by rw [whole]; simp) fun v mem => ?_
      rcases List.mem_append.mp mem with mem | mem
      · exact one v mem
      · rw [List.mem_singleton.mp mem]
        exact not_not.mp same

theorem lodBatchesAscend {works : List TreeWork} (sorted : works.Pairwise fun v w => v.magnitude ≤ w.magnitude) :
    Ascends works [] (lodBatches works) := by
  cases works with
  | nil => trivial
  | cons w rest => exact batchesAscend sorted rfl fun _ mem => (nomatch mem)

theorem queueNew {limits : Limits} {r : Registry} {works : List TreeWork} (worked : AllWorked limits r works)
    {groups : List (List TreeWork)} {ahead : List TreeWork} (ascends : Ascends works ahead groups) (serial : Nat → Nat) :
    QueueData limits.max r ahead (groups.mapIdx fun i works => newBatch (serial i) works) := by
  induction groups generalizing ahead serial with
  | nil => trivial
  | cons group rest ih =>
    rw [List.mapIdx_cons]
    have same : worksOf (newBatch (serial 0) group) = group := by
      unfold worksOf newBatch
      dsimp only
      rw [List.map_map]
      exact List.map_id _
    refine ⟨fun run mem => ?_, by rw [same]; exact ih ascends.2 fun i => serial (i + 1)⟩
    unfold newBatch at mem
    obtain ⟨w, inside, rfl⟩ := List.mem_map.mp mem
    obtain ⟨member, before⟩ := ascends.1 w inside
    obtain ⟨t, positions, own⟩ := worked w member
    refine ⟨⟨t, positions, own.here, own.inside, fun l under => ⟨own.items l under, own.ascending l under⟩⟩,
      fun l under n there_ c child u sub => ?_, fun on => absurd on Bool.false_ne_true⟩
    rcases own.due l under n there_ c child u sub with holds | next | ⟨_, v, other, tree, less, root⟩
    · exact Or.inl holds
    · exact Or.inr (Or.inl next)
    · exact Or.inr (Or.inr ⟨v, before v other less, tree, root⟩)

-- What gathering gives a pass.
theorem gatherRight {s : State} {max : Nat} {p : Pass} (good : Good s.registry) (gathered : gather s max = some p) :
    ∃ t parent, s.registry.get s.root = some t ∧
      Descended ⟨max, s.lodComplete⟩ ⟨s.registry, s.lodIds, []⟩ s.root (fakeParent t) p parent t := by
  unfold gather at gathered
  split at gathered
  · cases gathered
  · rename_i t here
    obtain ⟨⟨p', parent⟩, result, rfl⟩ := Option.map_eq_some_iff.mp gathered
    have nothing : AllWorked ⟨max, s.lodComplete⟩ s.registry [] := fun _ mem => (nomatch mem)
    obtain ⟨t', down⟩ := workItemsRight good nothing result
    have same := down.here
    dsimp only at same
    rw [here] at same
    cases same
    exact ⟨t, parent, here, down⟩

theorem generateData {s : State} {max : Nat} {p : Pass} {sorted : List TreeWork} (data : Data s) (none_ : s.batches = [])
    (gathered : gather s max = some p) (same : p.toLod.Perm sorted)
    (order : sorted.Pairwise fun v w => v.magnitude ≤ w.magnitude) : Data (generateLods s max p sorted) := by
  obtain ⟨t, parent, _, down⟩ := gatherRight data.good gathered
  have worked : AllWorked ⟨max, s.lodComplete⟩ p.registry sorted := by
    intro w mem
    obtain ⟨t', positions, own⟩ := down.worked w (same.mem_iff.mpr mem)
    obtain ⟨t'', own'⟩ := own.later (grownRefl _) fun v inside => same.mem_iff.mp inside
    exact ⟨t'', positions, own'⟩
  refine ⟨Good.grown data.good down.trees, ?_⟩
  unfold generateLods
  dsimp only
  rw [none_, List.nil_append]
  exact queueNew worked (lodBatchesAscend order) _

theorem withRunData {s s' : State} {serial i : Nat} {f : Run → Run} (data : Data s) (done : withRun s serial i f = some s')
    (level : ∀ run, (f run).level = run.level) (work : ∀ run, (f run).work = run.work) : Data s' := by
  unfold withRun at done
  split at done
  · cases done
  · rename_i b rest front
    split at done
    · obtain ⟨run, at_, rfl⟩ := Option.map_eq_some_iff.mp done
      have queue := data.queue
      rw [front] at queue
      refine ⟨data.good, QueueData.set queue at_ rfl rfl (work run) fun on l under past n mem => ?_⟩
      refine (queue.1 run (List.mem_of_getElem? at_)).published on l under (fun level' live => past level' ?_) n mem
      rw [level, live]
    · cases done

theorem performData {s s' : State} {a : Action} (data : Data s) (control : Control s) (can : allowed s a)
    (done : perform s a = some s') : Data s' := by
  cases a with
  | generate max sorted =>
    obtain ⟨none_, _, p, gathered, same, order⟩ := can
    dsimp only [perform] at done
    rw [gathered] at done
    cases done
    exact generateData data none_ gathered same order
  | change =>
    cases done
    exact ⟨can.2, data.queue.each fun own => own.spared can.1⟩
  | wake left =>
    cases done
    exact frontData data.good data.queue
  | turn =>
    cases control with
    | empty _ _ idle => exact absurd idle can
    | waiting _ _ _ idle => exact absurd idle can
    | running front started right => exact turnData data front started right (turnCases front done)
  | finish w g =>
    obtain ⟨t, with_, rfl⟩ := Option.map_eq_some_iff.mp done
    have own := withRunData data with_ (fun _ => rfl) fun _ => rfl
    exact ⟨own.good, own.queue⟩
  | count =>
    dsimp only [perform] at done
    unfold count at done
    split at done
    · obtain ⟨t, with_, rfl⟩ := Option.map_eq_some_iff.mp done
      have own := withRunData data with_ (fun _ => rfl) fun _ => rfl
      exact ⟨own.good, own.queue⟩
    · cases done
  | post =>
    cases done
    exact ⟨data.good, data.queue⟩

-- Every action that may be taken has a result.
theorem performSome {s : State} {a : Action} (data : Data s) (control : Control s) (can : allowed s a) :
    ∃ s', perform s a = some s' := by
  cases a with
  | generate max sorted =>
    obtain ⟨_, _, p, gathered, _⟩ := can
    exact ⟨_, by rw [perform, gathered]; rfl⟩
  | change => exact ⟨_, rfl⟩
  | wake left => exact ⟨_, rfl⟩
  | turn =>
    cases control with
    | empty _ _ idle => exact absurd idle can
    | waiting _ _ _ idle => exact absurd idle can
    | running front started right => exact turnSome data front started right can
  | finish w g =>
    obtain ⟨s', done, _⟩ := finishControl control can.1 can.2 g
    exact ⟨s', done⟩
  | count =>
    obtain ⟨_, _, _, storage⟩ := can
    obtain ⟨s', done, _⟩ := countControl control storage
    exact ⟨s', done⟩
  | post => exact ⟨_, rfl⟩

end Dewfall.LodPublish
