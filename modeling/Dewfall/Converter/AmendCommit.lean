import Dewfall.Converter.AmendUnits

/-! The calls that fill an amend, and what its commit leaves in the trees. The records of a run, the runs
and the units of a slice are numbered in 32 bits, and so is the size of a unit's values; beyond that values
are lost. A commit that fails is not treated. -/
namespace Dewfall.AmendCommit
open General General.KeyedStream SpillFile StorageMap TreeMerge AttributeAmend AmendSort AmendJoin AmendUnits

/-! ## Calls -/

inductive Call where
  | declare (info : Attribute) (keyAttribute : List Char)
  | addData (name : List Char) (keys : List UInt64) (values : Bytes)

def call (pending : List PendingAttribute) : Call → List PendingAttribute
  | .declare info keyAttribute =>
    match declare pending info keyAttribute with
    | .ok pending => pending
    | .error _ => pending
  | .addData name keys values => (addData pending name keys values).1

def entries (size : Nat) (keys : List UInt64) (values : Bytes) : Added :=
  keys.zipIdx.map fun key => (key.1, element size values key.2)

-- What one call adds to the attribute of a name; nothing where that is not declared.
def addedBy (pending : List PendingAttribute) (name : List Char) : Call → Added
  | .declare .. => []
  | .addData other keys values =>
    match pending.find? (·.info.name = other) with
    | none => []
    | some p => if other = name then entries (elementSize p) keys values else []

def addedTo (name : List Char) : List PendingAttribute → List Call → Added
  | _, [] => []
  | pending, c :: rest => addedBy pending name c ++ addedTo name (call pending c) rest

-- As many values as keys.
def Supplied : List PendingAttribute → List Call → Prop
  | _, [] => True
  | pending, c :: rest => (match c with
      | .declare .. => True
      | .addData name keys values => ∀ p ∈ pending, p.info.name = name → keys.length * elementSize p ≤ values.length) ∧
    Supplied (call pending c) rest

def nameOf (p : PendingAttribute) : List Char := p.info.name

structure Tracks (pending : List PendingAttribute) (before : List Char → Added) : Prop where
  names : (pending.map nameOf).Nodup
  spilled : ∀ p ∈ pending, Spilled p (before (nameOf p))
  fresh : ∀ name, name ∉ pending.map nameOf → before name = []

theorem elementLength {size : Nat} {values : Bytes} {j count : Nat} (inside : j < count)
    (enough : count * size ≤ values.length) : (element size values j).length = size := by
  unfold element
  rw [List.length_take, List.length_drop]
  have next_ := Nat.mul_le_mul_right size (Nat.succ_le_of_lt inside)
  rw [Nat.succ_mul] at next_
  omega

-- By induction on the keys that are left, which start at `first`.
theorem addRecordsFrom {size : Nat} {values : Bytes} (keys : List UInt64) (first : Nat) {p : PendingAttribute} {added : Added}
    (spilled : Spilled p added) (width : elementSize p = size) (enough : (first + keys.length) * size ≤ values.length) :
    Spilled ((keys.zipIdx first).foldl (fun p key => addRecord p key.1 (element (elementSize p) values key.2)) p)
      (added ++ (keys.zipIdx first).map fun key => (key.1, element size values key.2)) := by
  induction keys generalizing first p added with
  | nil => simpa using spilled
  | cons key rest ih =>
    rw [List.length_cons] at enough
    have inside : first < first + (rest.length + 1) := by omega
    have sized : (element (elementSize p) values first).length = elementSize p :=
      elementLength inside (width.symm ▸ enough)
    have one := addRecordSpilled spilled key sized
    have later := ih (first + 1) one width (by rwa [Nat.add_assoc, Nat.add_comm 1])
    rw [List.zipIdx_cons, List.foldl_cons, List.map_cons, ← width]
    rw [List.append_assoc, ← width] at later
    exact later

theorem addRecordsSpilled {p : PendingAttribute} {added : Added} (spilled : Spilled p added) {keys : List UInt64}
    {values : Bytes} (enough : keys.length * elementSize p ≤ values.length) :
    Spilled (addRecords p keys values) (added ++ entries (elementSize p) keys values) :=
  addRecordsFrom keys 0 spilled rfl (by rwa [Nat.zero_add])

theorem addRecordsName (p : PendingAttribute) (keys : List UInt64) (values : Bytes) :
    (addRecords p keys values).info = p.info := by
  unfold addRecords
  generalize keys.zipIdx = numbered
  induction numbered generalizing p with
  | nil => rfl
  | cons key rest ih => exact (ih _).trans rfl

theorem addDataMap {pending : List PendingAttribute} (names : (pending.map nameOf).Nodup) (name : List Char)
    (keys : List UInt64) (values : Bytes) : (addData pending name keys values).1 =
      pending.map fun p => if nameOf p = name then addRecords p keys values else p := by
  induction pending with
  | nil => rfl
  | cons p rest ih =>
    obtain ⟨fresh, later⟩ := List.nodup_cons.mp (List.map_cons ▸ names)
    rw [addData]
    split
    · rename_i other
      have same : ¬nameOf p = name := other
      rw [List.map_cons, if_neg same, ← ih later]
    · rename_i own
      have same : nameOf p = name := Classical.not_not.mp own
      rw [List.map_cons, if_pos same]
      refine congrArg (addRecords p keys values :: ·) ?_
      refine (List.map_id _).symm.trans (List.map_congr_left fun q mem => ?_)
      rw [if_neg fun equal => fresh (List.mem_map.mpr ⟨q, mem, equal.trans same.symm⟩)]
      rfl

theorem findNamed {pending : List PendingAttribute} (names : (pending.map nameOf).Nodup) {p : PendingAttribute}
    (mem : p ∈ pending) : pending.find? (·.info.name = nameOf p) = some p := by
  induction pending with
  | nil => cases mem
  | cons q rest ih =>
    obtain ⟨fresh, later⟩ := List.nodup_cons.mp (List.map_cons ▸ names)
    rcases List.mem_cons.mp mem with rfl | there
    · exact List.find?_cons_of_pos (by simp [nameOf])
    · have other : ¬q.info.name = nameOf p := fun same => fresh (List.mem_map.mpr ⟨p, there, same.symm⟩)
      rw [List.find?_cons_of_neg (by simpa using other)]
      exact ih later there

theorem declareTracks {pending : List PendingAttribute} {before : List Char → Added} (tracks : Tracks pending before)
    (info : Attribute) (keyAttribute : List Char) : Tracks (call pending (.declare info keyAttribute)) before := by
  cases known : declare pending info keyAttribute with
  | error error =>
    rw [call, known]
    exact tracks
  | ok after =>
    rw [call, known]
    unfold declare at known
    split at known
    · cases known
    · split at known
      · cases known
      · rename_i new
        split at known
        · cases known
        · cases known
          have fresh : info.name ∉ pending.map nameOf := by
            intro mem
            obtain ⟨p, there, same⟩ := List.mem_map.mp mem
            exact new (List.any_eq_true.mpr ⟨p, there, decide_eq_true same⟩)
          refine ⟨?_, fun p mem => ?_, fun name absent => tracks.fresh name fun there => absent ?_⟩
          · rw [List.map_append, List.map_singleton]
            refine List.nodup_append'.mpr ⟨tracks.names, List.nodup_singleton _, fun name here there => fresh ?_⟩
            rwa [List.mem_singleton.mp there] at here
          · rcases List.mem_append.mp mem with old | last
            · exact tracks.spilled p old
            · rw [List.mem_singleton.mp last]
              change Spilled _ (before info.name)
              rw [tracks.fresh info.name fresh]
              exact declaredSpilled info keyAttribute
          · rw [List.map_append]
            exact List.mem_append_left _ there

theorem addDataTracks {pending : List PendingAttribute} {before : List Char → Added} (tracks : Tracks pending before)
    {name : List Char} {keys : List UInt64} {values : Bytes}
    (enough : ∀ p ∈ pending, p.info.name = name → keys.length * elementSize p ≤ values.length) :
    Tracks (call pending (.addData name keys values))
      fun other => before other ++ addedBy pending other (.addData name keys values) := by
  have same : call pending (.addData name keys values) =
      pending.map fun p => if nameOf p = name then addRecords p keys values else p := addDataMap tracks.names ..
  have kept : (pending.map fun p => if nameOf p = name then addRecords p keys values else p).map nameOf =
      pending.map nameOf := by
    rw [List.map_map]
    refine List.map_congr_left fun p _ => ?_
    rw [Function.comp]
    split
    · exact congrArg Attribute.name (addRecordsName p keys values)
    · rfl
  rw [same]
  refine ⟨kept ▸ tracks.names, fun q mem => ?_, fun other absent => ?_⟩
  · obtain ⟨p, there, rfl⟩ := List.mem_map.mp mem
    have spilled := tracks.spilled p there
    split
    · rename_i own
      have found := findNamed tracks.names there
      have info : nameOf (addRecords p keys values) = nameOf p := congrArg Attribute.name (addRecordsName p keys values)
      rw [info, addedBy, ← own, found]
      dsimp only
      rw [if_pos rfl]
      exact addRecordsSpilled spilled (enough p there own)
    · rename_i other
      have nothing : addedBy pending (nameOf p) (.addData name keys values) = [] := by
        rw [addedBy]
        split
        · rfl
        · exact if_neg fun equal => other equal.symm
      rw [nothing, List.append_nil]
      exact spilled
  · rw [kept] at absent
    rw [tracks.fresh other absent, List.nil_append, addedBy]
    split
    · rfl
    · rename_i p found
      refine if_neg fun equal => absent (List.mem_map.mpr ⟨p, List.mem_of_find?_eq_some found, ?_⟩)
      have own := List.find?_some found
      exact (of_decide_eq_true own).trans equal

theorem callTracks {pending : List PendingAttribute} {before : List Char → Added} (tracks : Tracks pending before)
    {c : Call} {rest : List Call} (supplied : Supplied pending (c :: rest)) :
    Tracks (call pending c) fun name => before name ++ addedBy pending name c := by
  cases c with
  | declare info keyAttribute =>
    have step := declareTracks tracks info keyAttribute
    exact ⟨step.names, fun p mem => (List.append_nil _).symm ▸ step.spilled p mem,
      fun name absent => (List.append_nil _).trans (step.fresh name absent)⟩
  | addData name keys values => exact addDataTracks tracks supplied.1

theorem runTracks {calls : List Call} {pending : List PendingAttribute} {before : List Char → Added}
    (tracks : Tracks pending before) (supplied : Supplied pending calls) :
    Tracks (calls.foldl call pending) fun name => before name ++ addedTo name pending calls := by
  induction calls generalizing pending before with
  | nil =>
    simpa [addedTo] using tracks
  | cons c rest ih =>
    have later := ih (callTracks tracks supplied) supplied.2
    simpa only [addedTo, List.append_assoc, List.foldl_cons] using later

def amend (calls : List Call) : List PendingAttribute := calls.foldl call []

theorem amendSpilled {calls : List Call} (supplied : Supplied [] calls) :
    ∀ p ∈ amend calls, Spilled p (addedTo (nameOf p) [] calls) := by
  have start : Tracks [] fun _ => [] := ⟨List.nodup_nil, fun _ mem => (nomatch mem), fun _ _ => rfl⟩
  have run := (runTracks start supplied).spilled
  simpa only [amend, List.nil_append] using run

/-! ## The commit -/

variable {σ : Type} {store : BlobStore σ} {sort : AddressSort}

-- The value that was added last for a key.
def lastValue (added : Added) (key : Nat) : Option Bytes := (added.filter (·.1.toNat = key)).getLast?.map Prod.snd

def valueFor (p : PendingAttribute) (added : Added) (key : Nat) : Bytes :=
  (lastValue added key).getD (List.replicate (elementSize p) 0)

theorem recordsOfKey (added : Added) (key : Nat) :
    ofKey recordKey key (records added) = records (added.filter (·.1.toNat = key)) := by
  unfold ofKey records
  rw [List.filter_map]
  refine congrArg (List.map recordOf) (List.filter_congr fun e _ => ?_)
  simp only [Function.comp, recordKeyOf]

theorem arrangedValue {added : Added} {sorted : List Bytes} (arranged : Arranged recordKey (records added) sorted)
    (key : Nat) : valueOf sorted key = lastValue added key := by
  rw [valueOf, lastArranged arranged, lastOf, recordsOfKey, records, List.getLast?_map, Option.map_map, lastValue]
  refine congrArg (Option.map · _) (funext fun e => recordValue e)

theorem streamArranged {p : PendingAttribute} {added : Added} (spilled : Spilled p added) {sorted : List Bytes}
    (arranged : Arranged recordKey (records added) sorted) : Stream p sorted (valueFor p added) := by
  refine ⟨fun record mem => ?_, arranged.sorted, fun none_ => ?_, fun key => ?_⟩
  · obtain ⟨e, inside, rfl⟩ := List.mem_map.mp ((arrangedMem arranged).mp mem)
    exact recordLength (spilled.values e inside)
  · have count := spilled.wrote.count
    rw [none_] at count
    have empty : records added = [] := List.length_eq_zero_iff.mp count.symm
    have perm := ofKeyPerm arranged.same
    rw [empty] at perm
    exact perm.eq_nil
  · rw [valueFor, arrangedValue arranged]

def Numbered (budget : Nat) (p : PendingAttribute) : Prop :=
  p.ascending = true ∨ Narrow budget (recordSize p.info) p.spill.records

theorem amendAttributeAmended {budget : Nat} (some_ : 0 < budget) {p : PendingAttribute} {added : Added}
    (spilled : Spilled p added) (numbered : Numbered budget p) {w w' : World σ} (sound : Sound store w)
    (few : (snapshotStorageUnits w.trees).length ≤ 2 ^ 32) (sized : Sized store p w (snapshotStorageUnits w.trees))
    (result : amendAttribute store sort budget w p = .ok w') :
    Amended store p (valueFor p added) (snapshotStorageUnits w.trees) w w' := by
  have count : p.spill.records = added.length := spilled.wrote.count.trans (List.length_map ..)
  rw [Numbered, count] at numbered
  obtain ⟨sorted, ok, arranged⟩ := sortedValuesArranged spilled numbered
  unfold amendAttribute at result
  rw [ok] at result
  dsimp only at result
  split at result
  · cases result
  · exact amendUnitsAmended some_ (streamArranged spilled arranged) _ sound (fun unit mem => snapshotMem.mp mem)
      (snapshotDistinct w.trees) few sized (Nat.le_refl _) result

-- The attribute is found by its name, and the blob in its place holds the data.
structure Holds (store : BlobStore σ) (w : World σ) (v : Value) (slot : Nat) (info : Attribute) (data : Bytes) : Prop where
  index : getAttributeIndex w.configs v.attributesId info.name = some (slot, info)
  blob : ∃ l, v.storage[slot]? = some l ∧ store.read w.store l = .ok data

-- Every unit that can be joined has the values of its points' keys behind the blobs it had.
def Joins (store : BlobStore σ) (p : PendingAttribute) (value : Nat → Bytes) (w w' : World σ) : Prop :=
  ∀ place v keys, valueAt w.trees place = some v →
    unitKeys (store.read w.store) w.configs p v.attributesId v.storage = .ok (some keys) →
    ∃ v', valueAt w'.trees place = some v' ∧ Holds store w' v' v.storage.length p.info (keys.map value).flatten

structure Committed (store : BlobStore σ) (sort : AddressSort) (budget : Nat) (calls : List Call) (w w' : World σ) :
    Prop where
  ext : Extends store w w'
  joins : ∀ front p back, amend calls = front ++ p :: back → ∃ middle, commit store sort budget front w = .ok middle ∧
    Joins store p (valueFor p (addedTo (nameOf p) [] calls)) middle w'

theorem intoAppend {attributes more : Attributes} {info : Attribute}
    (absent : createAttributeSourceLodInto info.name attributes = none) :
    createAttributeSourceLodInto info.name (attributes ++ info :: more) = some (attributes.length, info) := by
  unfold createAttributeSourceLodInto at absent ⊢
  rw [List.zipIdx_append, List.find?_append, Option.map_eq_none_iff.mp absent, Option.none_or, List.zipIdx_cons,
    List.find?_cons_of_pos (by simp), Nat.zero_add]
  rfl

theorem joinedLater {p : PendingAttribute} {value : Nat → Bytes} {keys : List Nat} {w middle w' : World σ} {v v' v'' : Value}
    (described : Described store w v)
    (amendable : unitKeys (store.read w.store) w.configs p v.attributesId v.storage = .ok (some keys))
    (gains : Gains store p value keys w.configs middle v v') (ext : Extends store middle w')
    (grows : Grows middle.configs w'.configs v' v'') :
    Holds store w' v'' v.storage.length p.info (keys.map value).flatten := by
  obtain ⟨attributes, known, length⟩ := described.config
  have own : w.configs.getD v.attributesId [] = attributes := by rw [List.getD_eq_getElem?_getD, known, Option.getD_some]
  have config := gains.config
  rw [own] at config
  obtain ⟨l, whole, _, used, data⟩ := gains.storage
  have absent : createAttributeSourceLodInto p.info.name attributes = none := by
    unfold unitKeys at amendable
    split at amendable
    · cases amendable
    · rename_i new
      rw [getAttributeIndex, own] at new
      simpa using new
  refine ⟨?_, l, ?_, (ext.blobs l used).2.trans data⟩
  · obtain ⟨more, later⟩ := grows.config
    rw [List.getD_eq_getElem?_getD, config, Option.getD_some, List.append_assoc] at later
    rw [getAttributeIndex, ← later, length]
    exact intoAppend absent
  · obtain ⟨more, later⟩ := grows.storage
    rw [← later, whole, List.append_assoc, List.getElem?_append_right (Nat.le_refl _), Nat.sub_self]
    rfl

theorem commitCons {budget : Nat} {p : PendingAttribute} {rest : List PendingAttribute} {w w' : World σ} :
    commit store sort budget (p :: rest) w = .ok w' ↔
      ∃ middle, amendAttribute store sort budget w p = .ok middle ∧ commit store sort budget rest middle = .ok w' := by
  unfold commit
  rw [List.foldlM_cons]
  cases amendAttribute store sort budget w p with
  | error error => exact ⟨fun none_ => (nomatch none_), fun ⟨_, none_, _⟩ => nomatch none_⟩
  | ok middle => exact ⟨fun rest => ⟨middle, rfl, rest⟩, fun ⟨_, same, rest⟩ => Except.ok.inj same ▸ rest⟩

theorem snapshotKept {w w' : World σ} (ext : Extends store w w') :
    (snapshotStorageUnits w'.trees).length = (snapshotStorageUnits w.trees).length := by
  have places : ∀ {trees : List (Option Tree)} {place}, place ∈ (snapshotStorageUnits trees).map unitPlace ↔
      valueAt trees place ≠ none := by
    intro trees place
    rw [List.mem_map]
    constructor
    · rintro ⟨unit, mem, rfl⟩ none_
      obtain ⟨count, known⟩ := snapshotMem.mp mem
      rw [none_] at known
      cases known
    · intro some_
      obtain ⟨v, known⟩ := Option.ne_none_iff_exists'.mp some_
      exact ⟨⟨place.1, place.2, v.attributesId, v.storage⟩, snapshotMem.mpr ⟨v.refCount, known⟩, rfl⟩
  have perm : ((snapshotStorageUnits w'.trees).map unitPlace).Perm ((snapshotStorageUnits w.trees).map unitPlace) := by
    refine (List.perm_ext_iff_of_nodup (snapshotDistinct _) (snapshotDistinct _)).mpr fun place => ?_
    rw [places, places]
    refine not_congr ⟨fun none_ => ?_, ext.none place⟩
    cases known : valueAt w.trees place with
    | none => rfl
    | some v =>
      obtain ⟨v', found, _⟩ := ext.units place v known
      rw [none_] at found
      cases found
  simpa using perm.length_eq

-- Each attribute's values fit, unit by unit, when its turn comes.
def ValuesFit (store : BlobStore σ) (sort : AddressSort) (budget : Nat) : List PendingAttribute → World σ → Prop
  | [], _ => True
  | p :: rest, w => Sized store p w (snapshotStorageUnits w.trees) ∧
    ∀ middle, amendAttribute store sort budget w p = .ok middle → ValuesFit store sort budget rest middle

-- What the commit of several attributes relies on, and what it keeps.
structure Ready (store : BlobStore σ) (sort : AddressSort) (budget : Nat) (added : PendingAttribute → Added)
    (pending : List PendingAttribute) (w : World σ) : Prop where
  sound : Sound store w
  few : (snapshotStorageUnits w.trees).length ≤ 2 ^ 32
  spilled : ∀ p ∈ pending, Spilled p (added p)
  numbered : ∀ p ∈ pending, Numbered budget p
  narrow : ValuesFit store sort budget pending w

theorem amendReady {budget : Nat} (some_ : 0 < budget) {added : PendingAttribute → Added} {p : PendingAttribute}
    {rest : List PendingAttribute} {w middle : World σ} (ready : Ready store sort budget added (p :: rest) w)
    (result : amendAttribute store sort budget w p = .ok middle) :
    Amended store p (valueFor p (added p)) (snapshotStorageUnits w.trees) w middle ∧
      Ready store sort budget added rest middle := by
  have amended := amendAttributeAmended some_ (ready.spilled p List.mem_cons_self) (ready.numbered p List.mem_cons_self)
    ready.sound ready.few ready.narrow.1 result
  exact ⟨amended, amended.sound, (snapshotKept amended.ext).trans_le ready.few,
    fun q mem => ready.spilled q (List.mem_cons_of_mem _ mem), fun q mem => ready.numbered q (List.mem_cons_of_mem _ mem),
    ready.narrow.2 middle result⟩

theorem commitExtends {budget : Nat} (some_ : 0 < budget) {added : PendingAttribute → Added}
    {pending : List PendingAttribute} {w w' : World σ} (ready : Ready store sort budget added pending w)
    (committed : commit store sort budget pending w = .ok w') : Extends store w w' := by
  induction pending generalizing w with
  | nil =>
    obtain rfl : w = w' := Except.ok.inj committed
    exact extendsSelf w
  | cons p rest ih =>
    obtain ⟨middle, result, later⟩ := commitCons.mp committed
    obtain ⟨amended, ready'⟩ := amendReady some_ ready result
    exact extendsTrans amended.ext (ih ready' later)

-- By induction on the attributes before the one that is joined.
theorem commitJoined {budget : Nat} (some_ : 0 < budget) {added : PendingAttribute → Added} (front : List PendingAttribute)
    {p : PendingAttribute} {back : List PendingAttribute} {w w' : World σ}
    (ready : Ready store sort budget added (front ++ p :: back) w)
    (committed : commit store sort budget (front ++ p :: back) w = .ok w') :
    ∃ middle, commit store sort budget front w = .ok middle ∧ Joins store p (valueFor p (added p)) middle w' := by
  induction front generalizing w with
  | nil =>
    refine ⟨w, rfl, fun place v keys known amendable => ?_⟩
    obtain ⟨middle, result, later⟩ := commitCons.mp committed
    obtain ⟨amended, ready'⟩ := amendReady some_ ready result
    have ext := commitExtends some_ ready' later
    obtain ⟨v', found, gains⟩ := amended.joined ⟨place.1, place.2, v.attributesId, v.storage⟩
      (snapshotMem.mpr ⟨v.refCount, known⟩) keys amendable v known
    obtain ⟨v'', found', grows⟩ := ext.units place v' found
    exact ⟨v'', found', joinedLater (ready.sound place v known) amendable gains ext grows⟩
  | cons first rest ih =>
    obtain ⟨next_, result, later⟩ := commitCons.mp committed
    obtain ⟨_, ready'⟩ := amendReady some_ ready result
    obtain ⟨middle, done, joins⟩ := ih ready' later
    exact ⟨middle, commitCons.mpr ⟨next_, result, done⟩, joins⟩

theorem budgetPositive (overridden : Option Nat) : 0 < amendMemoryBudget overridden := by
  unfold amendMemoryBudget kDefaultMemoryBudget
  split
  · split <;> omega
  · decide

def memory : BlobStore (List Bytes) where
  used s l := l.offset < s.length
  read s l := match s[l.offset]? with
    | some data => .ok data
    | none => .error ⟨-1, "no such blob"⟩
  writeAttributes s writes := (s ++ writes.map AttributeWrite.data, writes.mapIdx fun i _ => ⟨0, s.length + i, 1⟩, ⟨0, ""⟩)
  kept s writes l used := by
    refine ⟨Nat.lt_of_lt_of_le used (by simp), ?_⟩
    rw [List.getElem?_append_left used]
  written s writes _ := by
    refine List.forall₂_iff_get.mpr ⟨by simp, fun i here there => ?_⟩
    simp only [List.get_eq_getElem, List.getElem_mapIdx, List.length_append, List.length_map]
    refine ⟨Nat.one_ne_zero, by omega, ?_⟩
    rw [List.getElem?_append_right (Nat.le_add_right ..), Nat.add_sub_cancel_left, List.getElem?_map,
      List.getElem?_eq_getElem here]
    rfl

def byKey : AddressSort where
  sort := StableSort.sortBy Address.key
  perm := StableSort.sortByPerm Address.key
  sorted := StableSort.sortBySorted Address.key

def keyed : Attribute := ⟨['k'], .u8, 1⟩
def joined : Attribute := ⟨['a'], .u8, 1⟩
def sharedId : InputId := ⟨1, 0⟩
def sharedValue : Value := ⟨0, [⟨0, 0, 1⟩], 1⟩

def sharing : Tree where
  storageMap := ⟨Function.update (fun _ => none) sharedId (some sharedValue), []⟩
  isDirty := false
  units := [sharedId]
  listed id := by
    by_cases same : id = sharedId
    · simp [same]
    · simp [same]
  nodup := List.nodup_singleton _

def twoTrees : World (List Bytes) := ⟨[some sharing, none, some sharing], [[keyed]], [[2, 1, 3]], []⟩

def severalCalls : List Call := [.declare joined ['k'], .addData ['a'] [2, 1, 2] [9, 8, 7]]

theorem sharingValue {id : InputId} {v : Value} (known : sharing.storageMap.map id = some v) : v = sharedValue := by
  change Function.update (fun _ => none) sharedId (some sharedValue) id = some v at known
  by_cases same : id = sharedId
  · subst same
    rw [Function.update_self] at known
    exact (Option.some.inj known).symm
  · rw [Function.update_of_ne same] at known
    cases known

theorem twoTreesSound : Sound memory twoTrees := by
  intro place v known
  obtain ⟨t, id⟩ := place
  have own : v = sharedValue := by
    cases t with
    | zero => exact sharingValue known
    | succ t =>
      cases t with
      | zero => cases known
      | succ t =>
        cases t with
        | zero => exact sharingValue known
        | succ t => cases known
  subst own
  refine ⟨⟨[keyed], rfl, rfl⟩, fun l mem _ => ?_⟩
  rw [List.mem_singleton.mp mem]
  exact Nat.one_pos

end Dewfall.AmendCommit
