import Dewfall.Core.MortonTree
import Dewfall.General.Codec
import Dewfall.General.StableSort
import Dewfall.General.Transition

/-! The attribute configurations of a dataset: lists interned to ids, the mapping of several of them into one,
and their bytes. Names are byte strings with their own length. Locking, the name registry and the buffers the
names live in are not treated. -/
namespace Dewfall.AttributeConfigs
open General General.Codec General.StableSort General.Transition MortonTree
open Morton (Format)

structure Attribute where
  name : Bytes
  type : BitVec 32
  components : BitVec 32
  sized : name.length < 2 ^ 32
  deriving DecidableEq

abbrev Attributes := List Attribute
abbrev Configs := List Attributes

def ascii (s : List Char) : Bytes := s.map fun c => BitVec.ofNat 8 c.toNat

def xyz : Bytes := ascii ['x', 'y', 'z']
def rgb : Bytes := ascii ['r', 'g', 'b']
def intensity : Bytes := ascii ['i', 'n', 't', 'e', 'n', 's', 'i', 't', 'y']
def classification : Bytes := ascii ['c', 'l', 'a', 's', 's', 'i', 'f', 'i', 'c', 'a', 't', 'i', 'o', 'n']
def originalOrder : Bytes := ascii ['o', 'r', 'i', 'g', 'i', 'n', 'a', 'l', '_', 'o', 'r', 'd', 'e', 'r']

-- `dew_type_t`
def u32 : BitVec 32 := 4
def ofFormat : Format → BitVec 32
  | .m32 => 6
  | .m64 => 10
  | .m128 => 12
  | .m192 => 13

/-! ## Interning -/

def getAttributeConfigIndex (configs : Configs) (attr : Attributes) : Configs × Nat :=
  match configs.findIdx? (· = attr) with
  | some i => (configs, i)
  | none => (configs ++ [attr], configs.length)

def internAll (configs : Configs) : List Attributes → Configs × List Nat
  | [] => (configs, [])
  | attr :: rest =>
    let (configs, id) := getAttributeConfigIndex configs attr
    let (configs, ids) := internAll configs rest
    (configs, id :: ids)

/-! ## The mapping -/

def containsAttribute (attributes : Attributes) (name : Bytes) : Bool := attributes.any (·.name = name)

def addMissingAttributes (source target : Attributes) : Attributes :=
  source.foldl (fun target a => if containsAttribute target a.name then target else target ++ [a]) target

def sortedIds (ids : List Nat) : List Nat := (sortBy (fun id => id) ids).eraseDups

def visual (a : Attribute) : Bool := decide (a.name = rgb) || decide (a.name = intensity) || decide (a.name = classification)

-- Behind the position: `original_order` by its fourteen characters, once, then everything that is not visual.
def slim (keepOriginalOrder lodAllAttributes : Bool) (others : Attributes) : Attributes :=
  let others := if keepOriginalOrder then others else others.eraseP fun a => a.name = originalOrder
  if !keepOriginalOrder && !lodAllAttributes then others.filter visual else others

-- The first attribute of that name.
def createAttributeSourceLodInto (name : Bytes) (attributes : Attributes) : Option (Nat × Attribute) :=
  (attributes.zipIdx.find? fun a => a.1.name = name).map fun a => (a.2, a.1)

structure LodMapping where
  destinationId : Nat
  destination : Attributes
  source : List (Nat × List (Option (Nat × Attribute)))

def lodTarget (configs : Configs) (lod : Nat) (first : Nat) (rest : List Nat) (keepOriginalOrder lodAllAttributes : Bool) :
    Option Attributes :=
  match rest.foldl (fun target id => addMissingAttributes (configs.getD id []) target) (configs.getD first []) with
  | [] => none
  | position :: others => some ({ position with type := ofFormat (typeFromLod lod), components := 1 } ::
      slim keepOriginalOrder lodAllAttributes others)

def getLodAttributeMapping (configs : Configs) (lod : Nat) (ids : List Nat) (keepOriginalOrder lodAllAttributes : Bool) :
    Option (Configs × LodMapping) :=
  match sortedIds ids with
  | [] => none
  | first :: rest =>
    (lodTarget configs lod first rest keepOriginalOrder lodAllAttributes).map fun target =>
      let (configs, id) := getAttributeConfigIndex configs target
      (configs, ⟨id, target, (first :: rest).map fun s =>
        (s, target.map fun a => createAttributeSourceLodInto a.name (configs.getD s []))⟩)

/-! ## What the sorter interns -/

-- The size of the macro's array counts its terminating zero.
def sorterOriginalOrder : Bytes := originalOrder ++ [0]

def sortedAttributes (attributes : Attributes) (type : BitVec 32) (storeOriginalOrder : Bool) (indexType : BitVec 32) :
    Attributes :=
  match attributes with
  | [] => []
  | position :: others => { position with type := type } :: others ++
    if storeOriginalOrder then [⟨sorterOriginalOrder, indexType, 1, by decide⟩] else []

/-! ## The bytes -/

def writeAttribute (a : Attribute) : Bytes :=
  littleEndian 4 a.type.toNat ++ (littleEndian 4 a.components.toNat ++ (littleEndian 4 a.name.length ++ a.name))

def writeAttributes (attributes : Attributes) : Bytes :=
  littleEndian 4 attributes.length ++ attributes.flatMap writeAttribute

def image (configs : Configs) : Bytes := littleEndian 4 configs.length ++ configs.flatMap writeAttributes

-- The buffer has the size in 32 bits; bytes beyond it would be written over the heap.
def serialize (configs : Configs) : Option Bytes :=
  if (image configs).length < 2 ^ 32 then some (image configs) else none

structure Error where
  code : Nat
  msg : String
  deriving DecidableEq, Repr

def readAttribute (input : Bytes) : Except Error (Attribute × Bytes) :=
  if input.length < 12 then .error ⟨3, "Invalid input size for attribute details"⟩
  else
    let nameSize := ofLittleEndian ((input.drop 8).take 4)
    let rest := input.drop 12
    if rest.length < nameSize then .error ⟨4, "Invalid input size for attribute name"⟩
    else if small : (rest.take nameSize).length < 2 ^ 32 then
      .ok (⟨rest.take nameSize, BitVec.ofNat 32 (ofLittleEndian (input.take 4)),
        BitVec.ofNat 32 (ofLittleEndian ((input.drop 4).take 4)), small⟩, rest.drop nameSize)
    -- Four bytes hold no such size.
    else .error ⟨4, "Invalid input size for attribute name"⟩

def readAttributes : Nat → Bytes → Except Error (Attributes × Bytes)
  | 0, input => .ok ([], input)
  | count + 1, input =>
    match readAttribute input with
    | .error e => .error e
    | .ok (a, input) =>
      match readAttributes count input with
      | .error e => .error e
      | .ok (rest, input) => .ok (a :: rest, input)

-- The lists in front of an error stay interned.
def readConfigs : Nat → Bytes → Configs → Configs × Option Error
  | 0, _, configs => (configs, none)
  | count + 1, input, configs =>
    if input.length < 4 then (configs, some ⟨2, "Invalid input size for attribute count"⟩)
    else match readAttributes (ofLittleEndian (input.take 4)) (input.drop 4) with
      | .error e => (configs, some e)
      | .ok (attributes, rest) => readConfigs count rest (getAttributeConfigIndex configs attributes).1

def deserialize (configs : Configs) (input : Bytes) : Configs × Option Error :=
  if input.length < 4 then (configs, some ⟨1, "Invalid input size for count"⟩)
  else readConfigs (ofLittleEndian (input.take 4)) (input.drop 4) configs

/-! ## Interning gives equal lists equal ids -/

theorem internKeeps (configs : Configs) (attr : Attributes) : configs <+: (getAttributeConfigIndex configs attr).1 := by
  unfold getAttributeConfigIndex
  split
  · exact List.prefix_refl _
  · exact List.prefix_append ..

theorem internAt (configs : Configs) (attr : Attributes) :
    (getAttributeConfigIndex configs attr).1[(getAttributeConfigIndex configs attr).2]? = some attr := by
  unfold getAttributeConfigIndex
  split
  · rename_i i found
    obtain ⟨inside, same, _⟩ := List.findIdx?_eq_some_iff_getElem.mp found
    rw [decide_eq_true_eq] at same
    exact (List.getElem?_eq_getElem inside).trans (congrArg some same)
  · exact List.getElem?_concat_length

theorem internNodup {configs : Configs} (distinct : configs.Nodup) (attr : Attributes) :
    (getAttributeConfigIndex configs attr).1.Nodup := by
  unfold getAttributeConfigIndex
  split
  · exact distinct
  · rename_i none_
    refine List.nodup_append.mpr ⟨distinct, List.nodup_singleton _, fun a mem b last => ?_⟩
    cases List.mem_singleton.mp last
    intro same
    subst same
    have different := List.findIdx?_eq_none_iff.mp none_ a mem
    simp at different

theorem internAllSound {configs : Configs} (distinct : configs.Nodup) (lists : List Attributes) :
    configs <+: (internAll configs lists).1 ∧ (internAll configs lists).1.Nodup ∧
      (internAll configs lists).2.map (fun id => (internAll configs lists).1[id]?) = lists.map some := by
  induction lists generalizing configs with
  | nil => exact ⟨List.prefix_refl _, distinct, rfl⟩
  | cons attr rest ih =>
    obtain ⟨more, nodup, found⟩ := ih (internNodup distinct attr)
    have here := internAt configs attr
    refine ⟨(internKeeps configs attr).trans more, nodup, ?_⟩
    unfold internAll
    dsimp only
    rw [List.map_cons, List.map_cons, found]
    obtain ⟨inside, same⟩ := List.getElem?_eq_some_iff.mp here
    congr 1
    obtain ⟨tail_, whole⟩ := more
    rw [← whole, List.getElem?_append_left inside, here]

-- Two interned lists have one id if and only if they are the same list.
theorem internedSame {configs : Configs} (distinct : configs.Nodup) (lists : List Attributes) {p q i j : Nat}
    {a b : Attributes} (first : lists[p]? = some a) (second : lists[q]? = some b)
    (one : (internAll configs lists).2[p]? = some i) (other : (internAll configs lists).2[q]? = some j) : i = j ↔ a = b := by
  obtain ⟨_, nodup, found⟩ := internAllSound distinct lists
  have at_ : ∀ {p i : Nat} {a : Attributes}, lists[p]? = some a → (internAll configs lists).2[p]? = some i →
      (internAll configs lists).1[i]? = some a := fun {p i a} list id => by
    have entry : ((internAll configs lists).2.map fun id => (internAll configs lists).1[id]?)[p]? = (lists.map some)[p]? := by
      rw [found]
    simp only [List.getElem?_map, list, id, Option.map_some] at entry
    exact Option.some.inj entry
  have here := at_ first one
  have there := at_ second other
  constructor
  · rintro rfl
    exact Option.some.inj (here.symm.trans there)
  · rintro rfl
    obtain ⟨low, same⟩ := List.getElem?_eq_some_iff.mp here
    obtain ⟨high, equal⟩ := List.getElem?_eq_some_iff.mp there
    exact (List.Nodup.getElem_inj_iff nodup).mp (same.trans equal.symm)

theorem internFresh {configs : Configs} {attr : Attributes} (fresh : attr ∉ configs) :
    (getAttributeConfigIndex configs attr).1 = configs ++ [attr] := by
  unfold getAttributeConfigIndex
  split
  · rename_i i found
    obtain ⟨inside, same, _⟩ := List.findIdx?_eq_some_iff_getElem.mp found
    rw [decide_eq_true_eq] at same
    exact absurd (same ▸ List.getElem_mem inside) fresh
  · rfl

theorem internAllFresh {configs : Configs} {lists : List Attributes} (distinct : (configs ++ lists).Nodup) :
    (internAll configs lists).1 = configs ++ lists := by
  induction lists generalizing configs with
  | nil => exact (List.append_nil _).symm
  | cons attr rest ih =>
    have fresh : attr ∉ configs := fun mem =>
      (List.nodup_append.mp distinct).2.2 attr mem attr (List.mem_cons_self ..) rfl
    have next : (configs ++ [attr] ++ rest).Nodup := by
      rw [List.append_assoc]
      exact distinct
    unfold internAll
    dsimp only
    rw [internFresh fresh, ih next, List.append_assoc]
    rfl

/-! ## The bytes read back -/

theorem word4 (v : BitVec 32) : BitVec.ofNat 32 (ofLittleEndian (littleEndian 4 v.toNat)) = v := by
  refine BitVec.eq_of_toNat_eq ?_
  rw [ofLittleEndianBack, BitVec.toNat_ofNat]
  have small := v.isLt
  omega

theorem size4 {n : Nat} (small : n < 2 ^ 32) : ofLittleEndian (littleEndian 4 n) = n := by
  rw [ofLittleEndianBack]
  exact Nat.mod_eq_of_lt small

theorem bytes4 {input : Bytes} (whole : input.length = 4) : littleEndian 4 (ofLittleEndian input) = input := by
  rw [← whole]
  exact ofLittleEndianForth input

theorem bytes4Lt {input : Bytes} (whole : input.length = 4) : ofLittleEndian input < 2 ^ 32 := by
  have small := ofLittleEndianLt input
  rw [whole] at small
  exact small

theorem readAttributeBack (a : Attribute) (rest : Bytes) : readAttribute (writeAttribute a ++ rest) = .ok (a, rest) := by
  have first : (writeAttribute a ++ rest).take 4 = littleEndian 4 a.type.toNat := by
    rw [writeAttribute, List.append_assoc]
    exact List.take_left' (littleEndianLength ..)
  have afterType : (writeAttribute a ++ rest).drop 4 =
      littleEndian 4 a.components.toNat ++ (littleEndian 4 a.name.length ++ (a.name ++ rest)) := by
    rw [writeAttribute, List.append_assoc, List.drop_left' (littleEndianLength ..), List.append_assoc, List.append_assoc]
  have afterComponents : (writeAttribute a ++ rest).drop 8 = littleEndian 4 a.name.length ++ (a.name ++ rest) := by
    have split : (writeAttribute a ++ rest).drop 8 = ((writeAttribute a ++ rest).drop 4).drop 4 := by
      rw [List.drop_drop]
    rw [split, afterType, List.drop_left' (littleEndianLength ..)]
  have afterSize : (writeAttribute a ++ rest).drop 12 = a.name ++ rest := by
    have split : (writeAttribute a ++ rest).drop 12 = ((writeAttribute a ++ rest).drop 8).drop 4 := by
      rw [List.drop_drop]
    rw [split, afterComponents, List.drop_left' (littleEndianLength ..)]
  have long : ¬(writeAttribute a ++ rest).length < 12 := by
    simp only [writeAttribute, List.length_append, littleEndianLength]
    omega
  unfold readAttribute
  rw [if_neg long]
  dsimp only
  rw [first, afterType, afterComponents, afterSize, List.take_left' (littleEndianLength ..),
    List.take_left' (littleEndianLength ..), size4 a.sized, word4, word4, if_neg (by rw [List.length_append]; omega)]
  simp only [List.take_left, List.drop_left, a.sized, dite_true]

theorem readAttributeExact {input rest : Bytes} {a : Attribute} (ok : readAttribute input = .ok (a, rest)) :
    input = writeAttribute a ++ rest := by
  unfold readAttribute at ok
  split at ok
  · cases ok
  · rename_i long
    dsimp only at ok
    split at ok
    · cases ok
    · rename_i room
      split at ok
      · cases ok
        have first : (input.take 4).length = 4 := by rw [List.length_take]; omega
        have second : ((input.drop 4).take 4).length = 4 := by rw [List.length_take, List.length_drop]; omega
        have third : ((input.drop 8).take 4).length = 4 := by rw [List.length_take, List.length_drop]; omega
        have named : ((input.drop 12).take (ofLittleEndian ((input.drop 8).take 4))).length =
            ofLittleEndian ((input.drop 8).take 4) := List.length_take_of_le (Nat.le_of_not_lt room)
        have word : ∀ bytes : Bytes, bytes.length = 4 →
            littleEndian 4 (BitVec.ofNat 32 (ofLittleEndian bytes)).toNat = bytes := fun bytes whole => by
          rw [BitVec.toNat_ofNat, Nat.mod_eq_of_lt (bytes4Lt whole), bytes4 whole]
        unfold writeAttribute
        dsimp only
        rw [named, word _ first, word _ second, bytes4 third, List.append_assoc, List.append_assoc, List.append_assoc,
          List.take_append_drop]
        have tail8 : (input.drop 8).take 4 ++ input.drop 12 = input.drop 8 := by
          have split : input.drop 12 = (input.drop 8).drop 4 := by
            rw [List.drop_drop]
          rw [split, List.take_append_drop]
        have tail4 : (input.drop 4).take 4 ++ input.drop 8 = input.drop 4 := by
          have split : input.drop 8 = (input.drop 4).drop 4 := by
            rw [List.drop_drop]
          rw [split, List.take_append_drop]
        rw [tail8, tail4, List.take_append_drop]
      · cases ok

theorem readAttributesBack (attributes : Attributes) (rest : Bytes) :
    readAttributes attributes.length (attributes.flatMap writeAttribute ++ rest) = .ok (attributes, rest) := by
  induction attributes with
  | nil => rfl
  | cons a later ih =>
    rw [List.length_cons, readAttributes, List.flatMap_cons, List.append_assoc, readAttributeBack]
    dsimp only
    rw [ih]

theorem readAttributesExact {count : Nat} {input rest : Bytes} {attributes : Attributes}
    (ok : readAttributes count input = .ok (attributes, rest)) :
    attributes.length = count ∧ input = attributes.flatMap writeAttribute ++ rest := by
  induction count generalizing input attributes with
  | zero =>
    cases ok
    exact ⟨rfl, rfl⟩
  | succ count ih =>
    unfold readAttributes at ok
    split at ok
    · cases ok
    · rename_i a after first
      split at ok
      · cases ok
      · rename_i later last more
        cases ok
        obtain ⟨counted, whole⟩ := ih more
        refine ⟨congrArg Nat.succ counted, ?_⟩
        rw [readAttributeExact first, whole, List.flatMap_cons, List.append_assoc]

-- Counts that four bytes hold.
def Counted (lists : List Attributes) : Prop := lists.length < 2 ^ 32 ∧ ∀ attributes ∈ lists, attributes.length < 2 ^ 32

theorem readConfigsBack {lists : List Attributes} (counted : ∀ attributes ∈ lists, attributes.length < 2 ^ 32)
    (rest : Bytes) (configs : Configs) :
    readConfigs lists.length (lists.flatMap writeAttributes ++ rest) configs = ((internAll configs lists).1, none) := by
  induction lists generalizing configs with
  | nil => rfl
  | cons attributes later ih =>
    obtain ⟨here, others⟩ := List.forall_mem_cons.mp counted
    have long : ¬((attributes :: later).flatMap writeAttributes ++ rest).length < 4 := by
      simp only [List.flatMap_cons, writeAttributes, List.length_append, littleEndianLength]
      omega
    rw [List.length_cons, readConfigs, if_neg long, List.flatMap_cons, writeAttributes, List.append_assoc, List.append_assoc,
      List.take_left' (littleEndianLength ..), List.drop_left' (littleEndianLength ..), size4 here, readAttributesBack]
    exact ih others _

theorem readConfigsExact {count : Nat} {input : Bytes} {configs after : Configs}
    (ok : readConfigs count input configs = (after, none)) :
    ∃ lists rest, lists.length = count ∧ (∀ attributes ∈ lists, attributes.length < 2 ^ 32) ∧
      input = lists.flatMap writeAttributes ++ rest ∧ after = (internAll configs lists).1 := by
  induction count generalizing input configs with
  | zero =>
    cases ok
    exact ⟨[], input, rfl, fun _ mem => (nomatch mem), rfl, rfl⟩
  | succ count ih =>
    unfold readConfigs at ok
    split at ok
    · cases ok
    · rename_i long
      split at ok
      · cases ok
      · rename_i attributes more read
        obtain ⟨lists, rest, length, sized, whole, interned⟩ := ih ok
        obtain ⟨counted, bytes⟩ := readAttributesExact read
        have first : (input.take 4).length = 4 := by rw [List.length_take]; omega
        refine ⟨attributes :: lists, rest, congrArg Nat.succ length, ?_, ?_, interned⟩
        · exact List.forall_mem_cons.mpr ⟨counted ▸ bytes4Lt first, sized⟩
        · rw [List.flatMap_cons, writeAttributes, counted, bytes4 first, List.append_assoc, List.append_assoc, ← whole,
            ← bytes, List.take_append_drop]

-- What is read without an error is the image of the lists it interns, and bytes that are not looked at.
theorem deserializeExact {configs after : Configs} {input : Bytes} : deserialize configs input = (after, none) ↔
    ∃ lists rest, Counted lists ∧ input = image lists ++ rest ∧ after = (internAll configs lists).1 := by
  unfold deserialize
  constructor
  · intro ok
    split at ok
    · cases ok
    · rename_i long
      obtain ⟨lists, rest, length, sized, whole, interned⟩ := readConfigsExact ok
      have first : (input.take 4).length = 4 := by rw [List.length_take]; omega
      refine ⟨lists, rest, ⟨length ▸ bytes4Lt first, sized⟩, ?_, interned⟩
      rw [image, length, bytes4 first, List.append_assoc, ← whole, List.take_append_drop]
  · rintro ⟨lists, rest, ⟨few, sized⟩, rfl, rfl⟩
    have long : ¬(image lists ++ rest).length < 4 := by
      simp only [image, List.length_append, littleEndianLength]
      omega
    rw [if_neg long, image, List.append_assoc, List.take_left' (littleEndianLength ..),
      List.drop_left' (littleEndianLength ..), size4 few]
    exact readConfigsBack sized rest configs

end Dewfall.AttributeConfigs
