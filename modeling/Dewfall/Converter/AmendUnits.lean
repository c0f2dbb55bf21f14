import Dewfall.Converter.AmendJoin
import Dewfall.General.Sequence

/-! One attribute joined to the units of the trees, slice by slice. A unit that has the key gains one blob and
one attribute; the others stay as they were. The order of the attributes is not treated here. -/
namespace Dewfall.AmendUnits
open General General.KeyedStream General.Scatter General.Sequence SpillFile StorageMap TreeMerge AttributeAmend AmendSort AmendJoin

/-! ## What the trees hold -/

def valueIn (tree : Option Tree) (id : InputId) : Option Value := tree.bind fun tree => tree.storageMap.map id

def valueAt (trees : List (Option Tree)) (p : Nat × InputId) : Option Value := trees[p.1]?.bind fun tree => valueIn tree p.2

def unitPlace (unit : StorageUnitRef) : Nat × InputId := (unit.tree, unit.id)

theorem treeMem {tree : Tree} {t : Nat} {unit : StorageUnitRef} : unit ∈ snapshotTree tree t ↔
    unit.tree = t ∧ ∃ count, tree.storageMap.map unit.id = some ⟨unit.attributesId, unit.storage, count⟩ := by
  unfold snapshotTree
  rw [List.mem_filterMap]
  constructor
  · rintro ⟨id, _, found⟩
    obtain ⟨value, known, rfl⟩ := Option.map_eq_some_iff.mp found
    exact ⟨rfl, value.refCount, known⟩
  · rintro ⟨rfl, count, known⟩
    refine ⟨unit.id, (tree.listed unit.id).mpr (by rw [known]; rfl), ?_⟩
    rw [known]
    rfl

theorem snapshotMem {trees : List (Option Tree)} {unit : StorageUnitRef} : unit ∈ snapshotStorageUnits trees ↔
    ∃ count, valueAt trees (unitPlace unit) = some ⟨unit.attributesId, unit.storage, count⟩ := by
  unfold snapshotStorageUnits valueAt unitPlace valueIn
  rw [List.mem_flatMap]
  constructor
  · rintro ⟨⟨tree, t⟩, there, mem⟩
    have here := List.mem_zipIdx_iff_getElem?.mp there
    cases tree with
    | none => cases mem
    | some tree =>
      obtain ⟨rfl, count, known⟩ := treeMem.mp mem
      refine ⟨count, ?_⟩
      dsimp only at here ⊢
      rw [here]
      exact known
  · rintro ⟨count, known⟩
    obtain ⟨tree, here, known⟩ := Option.bind_eq_some_iff.mp known
    cases tree with
    | none => cases known
    | some tree =>
      exact ⟨(some tree, unit.tree), List.mem_zipIdx_iff_getElem?.mpr here, treeMem.mpr ⟨rfl, count, known⟩⟩

theorem treeDistinct (tree : Tree) (t : Nat) : ((snapshotTree tree t).map unitPlace).Nodup := by
  have ids : ((snapshotTree tree t).map unitPlace) =
      (tree.units.filter fun id => (tree.storageMap.map id).isSome).map fun id => (t, id) := by
    unfold snapshotTree
    induction tree.units with
    | nil => rfl
    | cons id rest ih =>
      cases known : tree.storageMap.map id with
      | none => simp [known, ih]
      | some value => simp [known, ih, unitPlace]
  rw [ids]
  exact (tree.nodup.filter _).map fun a b same => (Prod.mk.inj same).2

theorem snapshotDistinct (trees : List (Option Tree)) : ((snapshotStorageUnits trees).map unitPlace).Nodup := by
  unfold snapshotStorageUnits
  rw [List.map_flatMap]
  have numbered : (trees.zipIdx.map Prod.snd).Nodup := by
    rw [List.zipIdx_map_snd]
    exact List.nodup_range'
  refine List.nodup_flatMap.mpr ⟨fun entry _ => ?_, (List.pairwise_map.mp numbered).imp fun {a b} apart => ?_⟩
  · obtain ⟨tree, t⟩ := entry
    cases tree with
    | none => exact List.nodup_nil
    | some tree => exact treeDistinct tree t
  · obtain ⟨first, t⟩ := a
    obtain ⟨second, t'⟩ := b
    intro p here there
    cases first with
    | none => cases here
    | some first =>
      cases second with
      | none => cases there
      | some second =>
        obtain ⟨unit, mem, rfl⟩ := List.mem_map.mp here
        obtain ⟨other, mem', same⟩ := List.mem_map.mp there
        have one := (treeMem.mp mem).1
        have two := (treeMem.mp mem').1
        exact apart (one.symm.trans ((congrArg Prod.fst same).symm.trans two))

/-! ## Appending to the trees -/

def grown (a : StorageUnitAppend) (l : Location) (v : Value) : Value :=
  { v with attributesId := a.attributesId, storage := v.storage ++ [l] }

theorem appendUnitMap (tree : Tree) (a : StorageUnitAppend) (l : Location) (id : InputId) :
    (appendUnit tree a l).storageMap.map id =
      if a.id = id then (tree.storageMap.map id).map (grown a l) else tree.storageMap.map id := by
  unfold appendUnit
  split
  · rename_i none_
    have absent : tree.storageMap.map a.id = none := Option.map_eq_none_iff.mp none_
    split
    · rename_i same
      rw [← same, absent]
      rfl
    · rfl
  · rename_i after done
    obtain ⟨value, known, rfl⟩ := Option.map_eq_some_iff.mp done
    by_cases same : a.id = id
    · subst same
      simp [known, grown]
    · simp [same, Function.update_of_ne (Ne.symm same)]

def appendPlace (a : StorageUnitAppend × Location) : Nat × InputId := (a.1.tree, a.1.id)

theorem appendScatters : Scatters valueAt
    (fun trees (a : StorageUnitAppend × Location) =>
      trees.modify a.1.tree (Option.map fun tree => appendUnit tree a.1 a.2))
    appendPlace fun a => grown a.1 a.2 := by
  refine ⟨fun trees a p => ?_⟩
  obtain ⟨t, id⟩ := p
  unfold valueAt appendPlace valueIn
  rw [List.getElem?_modify]
  by_cases own : a.1.tree = t
  · cases trees[t]? with
    | none => simp
    | some tree =>
      cases tree with
      | none => simp
      | some tree => simp [own, appendUnitMap]
  · simp [own]

/-! ## Keys -/

def Kept (configs configs' : Configs) : Prop :=
  ∀ (i : Nat) attributes, configs[i]? = some attributes → configs'[i]? = some attributes

theorem keptTrans {a b c : Configs} (first : Kept a b) (second : Kept b c) : Kept a c :=
  fun i attributes found => second i attributes (first i attributes found)

theorem keptD {configs configs' : Configs} (kept : Kept configs configs') {i : Nat} {attributes : Attributes}
    (found : configs[i]? = some attributes) : configs'.getD i [] = configs.getD i [] := by
  rw [List.getD_eq_getElem?_getD, List.getD_eq_getElem?_getD, found, kept i attributes found]

theorem appendedKept (configs : Configs) (base : Nat) (info : Attribute) :
    Kept configs (configWithAttributeAppended configs base info).1 ∧
      (configWithAttributeAppended configs base info).1[(configWithAttributeAppended configs base info).2]? =
        some (configs.getD base [] ++ [info]) :=
  ⟨fun _ _ found => configKept found, configIndex configs _⟩

-- A unit's keys depend on what its own blobs and its own attributes are.
theorem unitKeysSame {read read' : Location → Except DewError Bytes} {configs configs' : Configs} (p : PendingAttribute)
    {attributesId : Nat} {storage : List Location} {attributes : Attributes} (kept : Kept configs configs')
    (known : configs[attributesId]? = some attributes) (same : ∀ l ∈ storage, l.size ≠ 0 → read' l = read l) :
    unitKeys read' configs' p attributesId storage = unitKeys read configs p attributesId storage := by
  unfold unitKeys getAttributeIndex
  rw [keptD kept known]
  split
  · rfl
  · split
    · rfl
    · rename_i index key _
      cases here : storage[index]? with
      | none => rfl
      | some location =>
        dsimp only
        split
        · rfl
        · rename_i usable
          rw [same location (List.mem_of_getElem? here) fun none_ => usable (Or.inr (Or.inr none_))]

/-! ## Slices -/

abbrev Taken := List (StorageUnitRef × List Nat)

structure Cut (p : PendingAttribute) (configs : Configs) (taken : Taken) (s : Slice) : Prop where
  addresses : s.addresses = addressesFrom 0 (taken.map Prod.snd)
  writes : s.writes = taken.map fun u => ⟨[], u.2.length, p.info, !isLeaf u.1.id⟩
  buffers : s.buffers = taken.map fun u => List.replicate u.2.length (List.replicate (elementSize p) 0)
  appends : List.Forall₂ (fun u a => a.tree = u.1.tree ∧ a.id = u.1.id ∧
    s.configs[a.attributesId]? = some (configs.getD u.1.attributesId [] ++ [p.info])) taken s.appends
  configs : Kept configs s.configs

theorem cutNew (p : PendingAttribute) (configs : Configs) : Cut p configs [] ⟨configs, [], [], [], [], 0⟩ :=
  ⟨rfl, rfl, rfl, .nil, fun _ _ found => found⟩

theorem addUnitCut {p : PendingAttribute} {configs : Configs} {taken : Taken} {s : Slice} (cut : Cut p configs taken s)
    {unit : StorageUnitRef} {attributes : Attributes} (known : configs[unit.attributesId]? = some attributes)
    (few : taken.length < 2 ^ 32) (keys : List Nat) : Cut p configs (taken ++ [(unit, keys)]) (addUnit p unit keys s) := by
  obtain ⟨kept, stored⟩ := appendedKept s.configs unit.attributesId p.info
  rw [keptD cut.configs known] at stored
  have number : u32 s.buffers.length = taken.length := by
    rw [cut.buffers, List.length_map]
    exact u32Small few
  refine ⟨?_, ?_, ?_, ?_, keptTrans cut.configs kept⟩
  · rw [List.map_append, List.map_singleton, addressesAppend, List.length_map, Nat.zero_add, ← cut.addresses, ← number]
    rfl
  · rw [List.map_append, ← cut.writes]
    rfl
  · rw [List.map_append, ← cut.buffers]
    rfl
  · refine List.rel_append (cut.appends.imp fun u a one => ?_) (.cons ⟨rfl, rfl, stored⟩ .nil)
    exact ⟨one.1, one.2.1, kept _ _ one.2.2⟩

def keysOf (read : Location → Except DewError Bytes) (configs : Configs) (p : PendingAttribute) (unit : StorageUnitRef) :
    Option (StorageUnitRef × List Nat) :=
  match unitKeys read configs p unit.attributesId unit.storage with
  | .ok (some keys) => some (unit, keys)
  | _ => none

theorem takeSliceCut {read : Location → Except DewError Bytes} {budget : Nat} {p : PendingAttribute} {configs : Configs}
    {units : List StorageUnitRef} {taken : Taken} {s s' : Slice} {rest : List StorageUnitRef}
    (known : ∀ unit ∈ units, ∃ attributes, configs[unit.attributesId]? = some attributes)
    (few : taken.length + units.length ≤ 2 ^ 32) (cut : Cut p configs taken s)
    (sliced : takeSlice read budget p units s = .ok (s', rest)) :
    ∃ used, units = used ++ rest ∧ Cut p configs (taken ++ used.filterMap (keysOf read configs p)) s' ∧
      (s.sliceBytes < budget → units ≠ [] → used ≠ []) := by
  induction units generalizing taken s with
  | nil =>
    cases sliced
    exact ⟨[], rfl, by simpa using cut, fun _ some_ => absurd rfl some_⟩
  | cons unit later ih =>
    obtain ⟨⟨attributes, own⟩, others⟩ := List.forall_mem_cons.mp known
    rw [takeSlice] at sliced
    split at sliced
    · rename_i full
      cases sliced
      exact ⟨[], rfl, by simpa using cut, fun room => absurd full (Nat.not_le.mpr room)⟩
    · have same : unitKeys read s.configs p unit.attributesId unit.storage =
          unitKeys read configs p unit.attributesId unit.storage :=
        unitKeysSame p cut.configs own fun _ _ _ => rfl
      rw [same] at sliced
      rw [List.length_cons] at few
      cases found : unitKeys read configs p unit.attributesId unit.storage with
      | error error =>
        rw [found] at sliced
        cases sliced
      | ok result =>
        rw [found] at sliced
        cases result with
        | none =>
          obtain ⟨used, rfl, cut', _⟩ := ih others (by omega) cut sliced
          refine ⟨unit :: used, rfl, ?_, fun _ _ => List.cons_ne_nil unit used⟩
          have passed : keysOf read configs p unit = none := by rw [keysOf, found]
          rwa [List.filterMap_cons_none passed]
        | some keys =>
          have next_ := addUnitCut cut own (by omega) keys
          obtain ⟨used, rfl, cut', _⟩ := ih others (by rw [List.length_append, List.length_singleton]; omega) next_ sliced
          refine ⟨unit :: used, rfl, ?_, fun _ _ => List.cons_ne_nil unit used⟩
          have joined : keysOf read configs p unit = some (unit, keys) := by rw [keysOf, found]
          rw [List.filterMap_cons_some joined]
          rwa [List.append_assoc] at cut'

/-! ## Worlds -/

variable {σ : Type} {store : BlobStore σ} {sort : AddressSort}

-- A location of every attribute, and the blobs in use.
structure Described (store : BlobStore σ) (w : World σ) (v : Value) : Prop where
  config : ∃ attributes, w.configs[v.attributesId]? = some attributes ∧ v.storage.length = attributes.length
  used : ∀ l ∈ v.storage, l.size ≠ 0 → store.used w.store l

def Sound (store : BlobStore σ) (w : World σ) : Prop := ∀ p v, valueAt w.trees p = some v → Described store w v

-- A unit keeps its blobs and its attributes in their places.
structure Grows (configs configs' : Configs) (v v' : Value) : Prop where
  storage : v.storage <+: v'.storage
  config : configs.getD v.attributesId [] <+: configs'.getD v'.attributesId []
  count : v'.refCount = v.refCount

structure Extends (store : BlobStore σ) (w w' : World σ) : Prop where
  configs : Kept w.configs w'.configs
  blobs : ∀ l, store.used w.store l → store.used w'.store l ∧ store.read w'.store l = store.read w.store l
  units : ∀ p v, valueAt w.trees p = some v → ∃ v', valueAt w'.trees p = some v' ∧ Grows w.configs w'.configs v v'
  none : ∀ p, valueAt w.trees p = none → valueAt w'.trees p = none
  written : ∃ new, w'.written = w.written ++ new ∧ ∀ l ∈ new, ∃ p v, valueAt w'.trees p = some v ∧ l ∈ v.storage

theorem growsTrans {a b c : Configs} {u v w : Value} (first : Grows a b u v) (second : Grows b c v w) : Grows a c u w :=
  ⟨first.storage.trans second.storage, first.config.trans second.config, second.count.trans first.count⟩

theorem extendsSelf (w : World σ) : Extends store w w :=
  ⟨fun _ _ found => found, fun _ used => ⟨used, rfl⟩, fun _ v here => ⟨v, here, List.prefix_rfl, List.prefix_rfl, rfl⟩,
    fun _ none_ => none_, [], (List.append_nil _).symm, fun _ mem => nomatch mem⟩

theorem extendsTrans {a b c : World σ} (first : Extends store a b) (second : Extends store b c) : Extends store a c := by
  refine ⟨keptTrans first.configs second.configs, fun l used => ?_, fun p v here => ?_,
    fun p none_ => second.none p (first.none p none_), ?_⟩
  · obtain ⟨used', same⟩ := first.blobs l used
    obtain ⟨used'', same'⟩ := second.blobs l used'
    exact ⟨used'', same'.trans same⟩
  · obtain ⟨v', here', grows⟩ := first.units p v here
    obtain ⟨v'', here'', grows'⟩ := second.units p v' here'
    exact ⟨v'', here'', growsTrans grows grows'⟩
  · obtain ⟨new, whole, referred⟩ := first.written
    obtain ⟨more, whole', referred'⟩ := second.written
    refine ⟨new ++ more, by rw [whole', whole, List.append_assoc], fun l mem => ?_⟩
    rcases List.mem_append.mp mem with old | late
    · obtain ⟨p, v, here, inside⟩ := referred l old
      obtain ⟨v', here', grows⟩ := second.units p v here
      exact ⟨p, v', here', grows.storage.subset inside⟩
    · exact referred' l late

-- A unit that is joined gains the attribute and a blob of the values of its keys.
structure Gains (store : BlobStore σ) (p : PendingAttribute) (value : Nat → Bytes) (keys : List Nat) (configs : Configs)
    (w' : World σ) (v v' : Value) : Prop where
  config : w'.configs[v'.attributesId]? = some (configs.getD v.attributesId [] ++ [p.info])
  storage : ∃ l, v'.storage = v.storage ++ [l] ∧ l.size ≠ 0 ∧ store.used w'.store l ∧
    store.read w'.store l = .ok (keys.map value).flatten
  count : v'.refCount = v.refCount

theorem gainsLater {p : PendingAttribute} {value : Nat → Bytes} {keys : List Nat} {configs : Configs} {w w' : World σ}
    {v v' : Value} (ext : Extends store w w') (gains : Gains store p value keys configs w v v') :
    Gains store p value keys configs w' v v' := by
  obtain ⟨l, whole, size, used, data⟩ := gains.storage
  obtain ⟨used', same⟩ := ext.blobs l used
  exact ⟨ext.configs _ _ gains.config, ⟨l, whole, size, used', same.trans data⟩, gains.count⟩

/-! ## Writing a slice -/

-- A sorted stream of values, and what it has for a key.
structure Stream (p : PendingAttribute) (l : List Bytes) (value : Nat → Bytes) : Prop where
  sized : ∀ record ∈ l, record.length = recordSize p.info
  rising : Rising recordKey l
  none : p.spill.records = 0 → l = []
  value : ∀ key, value key = (valueOf l key).getD (List.replicate (elementSize p) 0)

theorem streamWidth {p : PendingAttribute} {l : List Bytes} {value : Nat → Bytes} (stream : Stream p l value) (key : Nat) :
    (value key).length = elementSize p := by
  rw [stream.value, valueOf]
  cases found : lastOf recordKey key l with
  | none => exact List.length_replicate
  | some record =>
    have sized := stream.sized record (List.mem_filter.mp (List.mem_of_getLast? found)).1
    have width : recordSize p.info = 8 + elementSize p := rfl
    rw [Option.map_some, Option.getD_some, List.length_drop, sized]
    omega

-- What is written of a buffer is the whole of it while its size fits 32 bits.
theorem streamWhole {p : PendingAttribute} {l : List Bytes} {value : Nat → Bytes} (stream : Stream p l value)
    {keys : List Nat} (narrow : keys.length * elementSize p < 2 ^ 32) :
    (keys.map value).flatten.take (u32 (keys.length * elementSize p)) = (keys.map value).flatten := by
  rw [u32Small narrow]
  refine List.take_of_length_le (Nat.le_of_eq ?_)
  rw [List.length_flatten, List.map_map]
  refine (congrArg List.sum (List.map_congr_left fun key _ => streamWidth stream key)).trans ?_
  rw [List.map_const', List.sum_replicate_nat]

theorem streamJoined {p : PendingAttribute} {l : List Bytes} {value : Nat → Bytes} (stream : Stream p l value)
    {configs : Configs} {taken : Taken} {s : Slice} (cut : Cut p configs taken s) :
    (if p.spill.records = 0 then .ok s.buffers
      else joinValues l.flatten (recordSize p.info) (sort.sort s.addresses) s.buffers) =
      (.ok (taken.map fun u => u.2.map value) : Except DewError Buffers) := by
  have positive : 0 < recordSize p.info := Nat.lt_of_lt_of_le (by decide) (Nat.le_add_right 8 _)
  split
  · rename_i zero
    have empty := stream.none zero
    rw [cut.buffers]
    congr 1
    refine List.map_congr_left fun u _ => ?_
    rw [List.map_congr_left (g := fun _ => List.replicate (elementSize p) 0), List.map_const']
    intro key _
    rw [stream.value, empty]
    rfl
  · have joined := sliceJoined positive stream.sized stream.rising sort (taken.map Prod.snd)
      (List.replicate (elementSize p) 0)
    rw [List.map_map, List.map_map] at joined
    rw [cut.addresses, cut.buffers]
    refine joined.trans ?_
    congr 1
    exact List.map_congr_left fun u _ => List.map_congr_left fun key _ => (stream.value key).symm

structure Stepped (store : BlobStore σ) (p : PendingAttribute) (value : Nat → Bytes) (taken : Taken) (w w' : World σ) :
    Prop where
  sound : Sound store w'
  ext : Extends store w w'
  others : ∀ place, place ∉ taken.map (fun u => unitPlace u.1) → valueAt w'.trees place = valueAt w.trees place
  joined : ∀ u ∈ taken, ∀ v, valueAt w.trees (unitPlace u.1) = some v →
    ∃ v', valueAt w'.trees (unitPlace u.1) = some v' ∧ Gains store p value u.2 w.configs w' v v'

theorem describedLater {w w' : World σ} {v : Value} (kept : Kept w.configs w'.configs)
    (blobs : ∀ l, store.used w.store l → store.used w'.store l) (described : Described store w v) :
    Described store w' v := by
  obtain ⟨attributes, known, length⟩ := described.config
  exact ⟨⟨attributes, kept _ _ known, length⟩, fun l mem size => blobs l (described.used l mem size)⟩

theorem gainsDescribed {p : PendingAttribute} {value : Nat → Bytes} {keys : List Nat} {w w' : World σ} {v v' : Value}
    (blobs : ∀ l, store.used w.store l → store.used w'.store l) (described : Described store w v)
    (gains : Gains store p value keys w.configs w' v v') : Described store w' v' := by
  obtain ⟨attributes, known, length⟩ := described.config
  obtain ⟨l, whole, size, used, _⟩ := gains.storage
  have config := gains.config
  rw [List.getD_eq_getElem?_getD, known, Option.getD_some] at config
  refine ⟨⟨_, config, ?_⟩, fun other mem size => ?_⟩
  · rw [whole, List.length_append, List.length_append, length]
    rfl
  · rw [whole] at mem
    rcases List.mem_append.mp mem with old | new
    · exact blobs other (described.used other old size)
    · rwa [List.mem_singleton.mp new]

theorem gainsGrows {p : PendingAttribute} {value : Nat → Bytes} {keys : List Nat} {configs : Configs} {w' : World σ}
    {v v' : Value} (gains : Gains store p value keys configs w' v v') : Grows configs w'.configs v v' := by
  obtain ⟨l, whole, _⟩ := gains.storage
  refine ⟨whole ▸ List.prefix_append .., ?_, gains.count⟩
  rw [List.getD_eq_getElem?_getD (l := w'.configs), gains.config]
  exact List.prefix_append ..

theorem sameGrows {configs configs' : Configs} {v : Value} {attributes : Attributes} (kept : Kept configs configs')
    (known : configs[v.attributesId]? = some attributes) : Grows configs configs' v v := by
  refine ⟨List.prefix_rfl, ?_, rfl⟩
  rw [keptD kept known]

-- What is written for a slice is appended to its units.
theorem appendedStepped {p : PendingAttribute} {value : Nat → Bytes} {w : World σ} (sound : Sound store w)
    {taken : Taken} {s : Slice} (cut : Cut p w.configs taken s)
    (here : ∀ u ∈ taken, ∃ v, valueAt w.trees (unitPlace u.1) = some v ∧ v.attributesId = u.1.attributesId)
    (distinct : (taken.map fun u => unitPlace u.1).Nodup) {after : σ} {locations : List Location}
    (keeps : ∀ l, store.used w.store l → store.used after l ∧ store.read after l = store.read w.store l)
    (written : List.Forall₂ (fun u l => l.size ≠ 0 ∧ store.used after l ∧
      store.read after l = .ok (u.2.map value).flatten) taken locations) :
    Stepped store p value taken w
      ⟨appendStorageUnits w.trees (s.appends.zip locations), s.configs, after, w.written ++ locations⟩ := by
  have pairs := forall₂Zip cut.appends written
  have places : (s.appends.zip locations).map appendPlace = taken.map fun u => unitPlace u.1 := by
    refine (List.forall₂_eq_eq_eq ▸ List.forall₂_map_left_iff.mpr (List.forall₂_map_right_iff.mpr ?_) :)
    exact pairs.flip.imp fun x u one => Prod.ext one.1.1 one.1.2.1
  have apart := distinct
  rw [← places] at apart
  have own : ∀ u ∈ taken, ∃ x ∈ s.appends.zip locations, ∀ v,
      valueAt w.trees (unitPlace u.1) = some v →
      valueAt (appendStorageUnits w.trees (s.appends.zip locations)) (unitPlace u.1) = some (grown x.1 x.2 v) ∧
        Gains store p value u.2 w.configs
          ⟨appendStorageUnits w.trees (s.appends.zip locations), s.configs, after, w.written ++ locations⟩ v
          (grown x.1 x.2 v) := by
    intro u mem
    obtain ⟨x, inside, ⟨tree, id, config⟩, size, used, data⟩ := forall₂Mem pairs mem
    refine ⟨x, inside, fun v known => ?_⟩
    have place : appendPlace x = unitPlace u.1 := Prod.ext tree id
    have found := scatterOwn appendScatters apart inside w.trees
    rw [place, known] at found
    obtain ⟨v', known', same⟩ := here u mem
    obtain rfl : v = v' := Option.some.inj (known.symm.trans known')
    exact ⟨found, ⟨same ▸ config, ⟨x.2, rfl, size, used, data⟩, rfl⟩⟩
  have others : ∀ place, place ∉ taken.map (fun u => unitPlace u.1) →
      valueAt (appendStorageUnits w.trees (s.appends.zip locations)) place = valueAt w.trees place :=
    fun place beyond => scatterOthers appendScatters (places ▸ beyond) w.trees
  have each : ∀ place v, valueAt w.trees place = some v →
      ∃ v', valueAt (appendStorageUnits w.trees (s.appends.zip locations)) place = some v' ∧
        Grows w.configs s.configs v v' ∧ Described store
          ⟨appendStorageUnits w.trees (s.appends.zip locations), s.configs, after, w.written ++ locations⟩ v' := by
    intro place v known
    have described := sound place v known
    by_cases among : place ∈ taken.map fun u => unitPlace u.1
    · obtain ⟨u, mem, rfl⟩ := List.mem_map.mp among
      obtain ⟨x, _, grows⟩ := own u mem
      obtain ⟨found, gains⟩ := grows v known
      exact ⟨_, found, gainsGrows gains, gainsDescribed (fun l used => (keeps l used).1) described gains⟩
    · obtain ⟨attributes, config, _⟩ := described.config
      exact ⟨v, (others place among).trans known, sameGrows cut.configs config,
        describedLater cut.configs (fun l used => (keeps l used).1) described⟩
  have vacant : ∀ place, valueAt w.trees place = none →
      valueAt (appendStorageUnits w.trees (s.appends.zip locations)) place = none := by
    intro place none_
    refine (others place fun among => ?_).trans none_
    obtain ⟨u, mem, rfl⟩ := List.mem_map.mp among
    obtain ⟨v, known, _⟩ := here u mem
    rw [none_] at known
    cases known
  refine ⟨fun place v' found => ?_, ⟨cut.configs, keeps, fun place v known => ?_, vacant, locations, rfl, fun l mem => ?_⟩,
    others, fun u mem v known => ?_⟩
  · cases known : valueAt w.trees place with
    | none =>
      rw [vacant place known] at found
      cases found
    | some v =>
      obtain ⟨v'', found', _, described⟩ := each place v known
      obtain rfl : v'' = v' := Option.some.inj (found'.symm.trans found)
      exact described
  · obtain ⟨v', found, grows, _⟩ := each place v known
    exact ⟨v', found, grows⟩
  · have seconds : (s.appends.zip locations).map Prod.snd = locations :=
      List.map_snd_zip (Nat.le_of_eq (written.length_eq.symm.trans cut.appends.length_eq))
    obtain ⟨x, inside, rfl⟩ := List.mem_map.mp (seconds ▸ mem)
    obtain ⟨u, there, place⟩ := List.mem_map.mp (places ▸ List.mem_map_of_mem inside)
    obtain ⟨v, known, _⟩ := here u there
    have found := scatterOwn appendScatters apart inside w.trees
    rw [← place, known] at found
    exact ⟨_, _, found, List.mem_append_right _ (List.mem_singleton_self _)⟩
  · obtain ⟨x, _, grows⟩ := own u mem
    obtain ⟨found, gains⟩ := grows v known
    exact ⟨_, found, gains⟩

theorem writeSliceStepped {p : PendingAttribute} {l : List Bytes} {value : Nat → Bytes} (stream : Stream p l value)
    {w w' : World σ} (sound : Sound store w) {taken : Taken} {s : Slice} (cut : Cut p w.configs taken s)
    (here : ∀ u ∈ taken, ∃ v, valueAt w.trees (unitPlace u.1) = some v ∧ v.attributesId = u.1.attributesId)
    (distinct : (taken.map fun u => unitPlace u.1).Nodup) (narrow : ∀ u ∈ taken, u.2.length * elementSize p < 2 ^ 32)
    (result : writeSlice store sort p l.flatten w s = .ok w') : Stepped store p value taken w w' := by
  unfold writeSlice at result
  split at result
  · rename_i none_
    cases result
    obtain rfl : taken = [] := List.map_eq_nil_iff.mp (cut.writes.symm.trans none_)
    have empty := List.forall₂_nil_left_iff.mp cut.appends
    have stepped : Stepped store p value [] w
        ⟨appendStorageUnits w.trees (s.appends.zip []), s.configs, w.store, w.written ++ []⟩ :=
      appendedStepped sound cut here distinct (fun l used => ⟨used, rfl⟩) .nil
    rwa [empty, List.append_nil] at stepped
  · rw [streamJoined stream cut] at result
    dsimp only at result
    rw [cut.writes, List.zipWith_map_left, List.zipWith_map_right, List.zipWith_self, List.map_congr_left fun u mem =>
      congrArg (AttributeWrite.mk · u.2.length p.info !isLeaf u.1.id) (streamWhole stream (narrow u mem))] at result
    split at result
    · cases result
    · rename_i fine
      split at result
      · cases result
      · cases result
        refine appendedStepped sound cut here distinct (fun l used => store.kept _ _ l used) ?_
        exact List.forall₂_map_left_iff.mp (store.written _ _ (Classical.not_not.mp fine))

/-! ## One attribute -/

structure Amended (store : BlobStore σ) (p : PendingAttribute) (value : Nat → Bytes) (units : List StorageUnitRef)
    (w w' : World σ) : Prop where
  sound : Sound store w'
  ext : Extends store w w'
  others : ∀ place, place ∉ units.map unitPlace → valueAt w'.trees place = valueAt w.trees place
  joined : ∀ unit ∈ units, ∀ keys, unitKeys (store.read w.store) w.configs p unit.attributesId unit.storage = .ok (some keys) →
    ∀ v, valueAt w.trees (unitPlace unit) = some v →
      ∃ v', valueAt w'.trees (unitPlace unit) = some v' ∧ Gains store p value keys w.configs w' v v'
  passed : ∀ unit ∈ units, unitKeys (store.read w.store) w.configs p unit.attributesId unit.storage = .ok none →
    valueAt w'.trees (unitPlace unit) = valueAt w.trees (unitPlace unit)

-- The units as the trees hold them.
def Listed (w : World σ) (units : List StorageUnitRef) : Prop :=
  ∀ unit ∈ units, ∃ count, valueAt w.trees (unitPlace unit) = some ⟨unit.attributesId, unit.storage, count⟩

theorem listedKeys {w w' : World σ} (sound : Sound store w) (ext : Extends store w w') {units : List StorageUnitRef}
    (listed : Listed w units) {unit : StorageUnitRef} (mem : unit ∈ units) (p : PendingAttribute) :
    unitKeys (store.read w'.store) w'.configs p unit.attributesId unit.storage =
      unitKeys (store.read w.store) w.configs p unit.attributesId unit.storage := by
  obtain ⟨count, known⟩ := listed unit mem
  have described := sound _ _ known
  obtain ⟨attributes, config, _⟩ := described.config
  exact unitKeysSame p ext.configs config fun l inside size => (ext.blobs l (described.used l inside size)).2

theorem keysMem {read : Location → Except DewError Bytes} {configs : Configs} {p : PendingAttribute}
    {units : List StorageUnitRef} {u : StorageUnitRef × List Nat} : u ∈ units.filterMap (keysOf read configs p) ↔
      u.1 ∈ units ∧ unitKeys read configs p u.1.attributesId u.1.storage = .ok (some u.2) := by
  rw [List.mem_filterMap]
  constructor
  · rintro ⟨unit, mem, found⟩
    unfold keysOf at found
    split at found
    · rename_i keys same
      cases found
      exact ⟨mem, same⟩
    · cases found
  · rintro ⟨mem, same⟩
    refine ⟨u.1, mem, ?_⟩
    rw [keysOf, same]

theorem keysPlaces (read : Location → Except DewError Bytes) (configs : Configs) (p : PendingAttribute)
    (units : List StorageUnitRef) :
    ((units.filterMap (keysOf read configs p)).map fun u => unitPlace u.1).Sublist (units.map unitPlace) := by
  induction units with
  | nil => exact .slnil
  | cons unit rest ih =>
    rw [List.map_cons]
    cases here : keysOf read configs p unit with
    | none =>
      rw [List.filterMap_cons_none here]
      exact ih.cons _
    | some u =>
      have own : u.1 = unit := by
        unfold keysOf at here
        split at here
        · cases here
          rfl
        · cases here
      rw [List.filterMap_cons_some here, List.map_cons, own]
      exact ih.cons_cons _

-- The values of a unit's points fit a buffer whose size has 32 bits.
def Sized (store : BlobStore σ) (p : PendingAttribute) (w : World σ) (units : List StorageUnitRef) : Prop :=
  ∀ unit ∈ units, ∀ keys, unitKeys (store.read w.store) w.configs p unit.attributesId unit.storage = .ok (some keys) →
    keys.length * elementSize p < 2 ^ 32

theorem slicedThen {p : PendingAttribute} {value : Nat → Bytes} {w middle w' : World σ} (sound : Sound store w)
    {used rest : List StorageUnitRef} (listed : Listed w (used ++ rest)) (distinct : ((used ++ rest).map unitPlace).Nodup)
    (first : Stepped store p value (used.filterMap (keysOf (store.read w.store) w.configs p)) w middle)
    (later : Amended store p value rest middle w') : Amended store p value (used ++ rest) w w' := by
  rw [List.map_append] at distinct
  have apart := (List.nodup_append'.mp distinct).2.2
  have among : ∀ place ∈ (used.filterMap (keysOf (store.read w.store) w.configs p)).map (fun u => unitPlace u.1),
      place ∈ used.map unitPlace := fun place mem => (keysPlaces _ _ p used).subset mem
  have still : ∀ place ∈ rest.map unitPlace, valueAt middle.trees place = valueAt w.trees place :=
    fun place mem => first.others place fun here => apart (among place here) mem
  have final : ∀ place ∈ used.map unitPlace, valueAt w'.trees place = valueAt middle.trees place :=
    fun place mem => later.others place fun there => apart mem there
  have same : ∀ unit ∈ rest, unitKeys (store.read middle.store) middle.configs p unit.attributesId unit.storage =
      unitKeys (store.read w.store) w.configs p unit.attributesId unit.storage :=
    fun unit mem => listedKeys sound first.ext listed (List.mem_append_right _ mem) p
  refine ⟨later.sound, extendsTrans first.ext later.ext, fun place beyond => ?_, fun unit mem keys found v known => ?_,
    fun unit mem found => ?_⟩
  · rw [List.map_append, List.mem_append, not_or] at beyond
    rw [later.others place beyond.2, first.others place fun here => beyond.1 (among place here)]
  · rcases List.mem_append.mp mem with old | new
    · obtain ⟨v', here, gains⟩ := first.joined (unit, keys) (keysMem.mpr ⟨old, found⟩) v known
      refine ⟨v', ?_, gainsLater later.ext gains⟩
      rw [final _ (List.mem_map_of_mem old)]
      exact here
    · have there := still _ (List.mem_map_of_mem new)
      obtain ⟨v', here, gains⟩ := later.joined unit new keys ((same unit new).trans found) v (there.trans known)
      obtain ⟨attributes, config, _⟩ := (sound _ _ known).config
      refine ⟨v', here, ⟨?_, gains.storage, gains.count⟩⟩
      rw [gains.config, keptD first.ext.configs config]
  · rcases List.mem_append.mp mem with old | new
    · rw [final _ (List.mem_map_of_mem old)]
      refine first.others _ fun here => ?_
      obtain ⟨u, joined, place⟩ := List.mem_map.mp here
      obtain ⟨inside, keys⟩ := keysMem.mp joined
      have one : u.1 = unit := List.inj_on_of_nodup_map (List.nodup_append'.mp distinct).1 inside old place
      rw [one, found] at keys
      cases keys
    · rw [later.passed unit new ((same unit new).trans found), still _ (List.mem_map_of_mem new)]

-- By induction on the slices: the units of one slice are not among those of the later ones.
theorem amendUnitsAmended {budget : Nat} (some_ : 0 < budget) {p : PendingAttribute} {l : List Bytes} {value : Nat → Bytes}
    (stream : Stream p l value) (fuel : Nat) {units : List StorageUnitRef} {w w' : World σ} (sound : Sound store w)
    (listed : Listed w units) (distinct : (units.map unitPlace).Nodup) (few : units.length ≤ 2 ^ 32)
    (narrow : Sized store p w units) (enough : units.length ≤ fuel)
      (result : amendUnits store sort budget p l.flatten fuel units w = .ok w') :
    Amended store p value units w w' := by
  have done : ∀ {w}, Sound store w → Amended store p value [] w w := fun sound =>
    ⟨sound, extendsSelf _, fun _ _ => rfl, fun _ mem => (nomatch mem), fun _ mem => nomatch mem⟩
  induction fuel generalizing units w with
  | zero =>
    obtain rfl : units = [] := List.length_eq_zero_iff.mp (Nat.le_zero.mp enough)
    obtain rfl : w = w' := Except.ok.inj result
    exact done sound
  | succ fuel ih =>
    cases units with
    | nil =>
      obtain rfl : w = w' := Except.ok.inj result
      exact done sound
    | cons first more =>
      simp only [amendUnits] at result
      generalize whole : first :: more = units at *
      have filled : units ≠ [] := whole ▸ List.cons_ne_nil first more
      cases sliced : takeSlice (store.read w.store) budget p units ⟨w.configs, [], [], [], [], 0⟩ with
      | error error =>
        rw [sliced] at result
        cases result
      | ok cut =>
        rw [sliced] at result
        obtain ⟨s, rest⟩ := cut
        dsimp only at result
        have known : ∀ unit ∈ units, ∃ attributes, w.configs[unit.attributesId]? = some attributes := by
          intro unit mem
          obtain ⟨count, here⟩ := listed unit mem
          obtain ⟨attributes, config, _⟩ := (sound _ _ here).config
          exact ⟨attributes, config⟩
        obtain ⟨used, rfl, cut, progress⟩ := takeSliceCut known (by simpa using few) (cutNew p w.configs) sliced
        rw [List.nil_append] at cut
        cases written : writeSlice store sort p l.flatten w s with
        | error error =>
          rw [written] at result
          cases result
        | ok middle =>
          rw [written] at result
          have parts := List.nodup_append'.mp (List.map_append ▸ distinct)
          have stepped := writeSliceStepped stream sound cut (fun u mem => by
            obtain ⟨count, here⟩ := listed u.1 (List.mem_append_left _ (keysMem.mp mem).1)
            exact ⟨_, here, rfl⟩) (parts.1.sublist (keysPlaces _ _ p used)) (fun u mem =>
            narrow u.1 (List.mem_append_left _ (keysMem.mp mem).1) u.2 (keysMem.mp mem).2) written
          refine slicedThen sound listed distinct stepped ?_
          have shorter := List.length_pos_iff.mpr (progress some_ filled)
          rw [List.length_append] at few enough
          have sized : Sized store p middle rest := fun unit mem keys found => by
            rw [listedKeys sound stepped.ext listed (List.mem_append_right _ mem)] at found
            exact narrow unit (List.mem_append_right _ mem) keys found
          refine ih stepped.sound (fun unit mem => ?_) parts.2.1 (by omega) sized (by omega) result
          obtain ⟨count, here⟩ := listed unit (List.mem_append_right _ mem)
          refine ⟨count, (stepped.others _ fun there => ?_).trans here⟩
          exact parts.2.2 ((keysPlaces _ _ p used).subset there) (List.mem_map_of_mem mem)

end Dewfall.AmendUnits
