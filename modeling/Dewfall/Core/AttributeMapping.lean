import Dewfall.Core.AttributeConfigs
import Mathlib.Data.List.Forall2

/-! What the configurations keep over any calls of the readers, the sorter and the mapping: which names a
mapping ends with, what its entries point to, and which bytes are read back. -/
namespace Dewfall.AttributeMapping
open General General.Codec General.StableSort General.Transition AttributeConfigs

/-! ## The calls -/

inductive Action where
  | reader (attributes : Attributes)
  | sorter (id : Nat) (type : BitVec 32) (storeOriginalOrder : Bool) (indexType : BitVec 32)
  | lodMapping (lod : Nat) (ids : List Nat) (keepOriginalOrder lodAllAttributes : Bool)

def perform (configs : Configs) : Action → Configs
  | .reader attributes => (getAttributeConfigIndex configs attributes).1
  | .sorter id type store indexType =>
    (getAttributeConfigIndex configs (sortedAttributes (configs.getD id []) type store indexType)).1
  | .lodMapping lod ids keep lodAll => ((getLodAttributeMapping configs lod ids keep lodAll).map Prod.fst).getD configs

-- The reader turns a list away whose first attribute is no position.
def Allowed (configs : Configs) : Action → Prop
  | .reader attributes => attributes.head?.map Attribute.name = some xyz
  | .sorter id _ _ _ => id < configs.length
  | .lodMapping _ ids _ _ => ids ≠ [] ∧ ∀ id ∈ ids, id < configs.length

instance (configs : Configs) : (a : Action) → Decidable (Allowed configs a)
  | .reader attributes => inferInstanceAs (Decidable (attributes.head?.map Attribute.name = some xyz))
  | .sorter id _ _ _ => inferInstanceAs (Decidable (id < configs.length))
  | .lodMapping _ ids _ _ => inferInstanceAs (Decidable (ids ≠ [] ∧ ∀ id ∈ ids, id < configs.length))

def system : System Configs Action := .ofFunction [] Allowed perform

/-! ## Names -/

def Named (attributes : Attributes) (n : Bytes) : Prop := ∃ a ∈ attributes, a.name = n

-- With or without the terminating zero.
def IsOriginalOrder (n : Bytes) : Prop := n = originalOrder ∨ n = sorterOriginalOrder

def IsVisual (n : Bytes) : Prop := n = rgb ∨ n = intensity ∨ n = classification

-- The union of the sources, without original_order unless it is kept, and visual when slimming.
def Wanted (configs : Configs) (ids : List Nat) (keep lodAll : Bool) (n : Bytes) : Prop :=
  (∃ id ∈ ids, Named (configs.getD id []) n) ∧ (keep = true ∨ ¬IsOriginalOrder n) ∧
    (keep = true ∨ lodAll = true ∨ n = xyz ∨ IsVisual n)

def merged (configs : Configs) (first : Nat) (rest : List Nat) : Attributes :=
  rest.foldl (fun target id => addMissingAttributes (configs.getD id []) target) (configs.getD first [])

theorem containsNamed {attributes : Attributes} {n : Bytes} : containsAttribute attributes n = true ↔ Named attributes n := by
  simp [containsAttribute, Named]

theorem addMissingSound (source target : Attributes) : target <+: addMissingAttributes source target ∧
    ∀ n, Named (addMissingAttributes source target) n ↔ Named target n ∨ Named source n := by
  unfold addMissingAttributes
  induction source generalizing target with
  | nil => exact ⟨List.prefix_refl _, fun n => ⟨.inl, fun h => h.resolve_right fun ⟨a, mem, _⟩ => nomatch mem⟩⟩
  | cons a rest ih =>
    rw [List.foldl_cons]
    by_cases known : containsAttribute target a.name = true
    · rw [if_pos known]
      obtain ⟨more, names⟩ := ih target
      refine ⟨more, fun n => (names n).trans ⟨fun h => h.imp_right fun ⟨b, mem, same⟩ =>
        ⟨b, List.mem_cons_of_mem a mem, same⟩, ?_⟩⟩
      rintro (there | ⟨b, mem, same⟩)
      · exact .inl there
      · rcases List.mem_cons.mp mem with rfl | later
        · exact .inl (same ▸ containsNamed.mp known)
        · exact .inr ⟨b, later, same⟩
    · rw [if_neg known]
      obtain ⟨more, names⟩ := ih (target ++ [a])
      refine ⟨(List.prefix_append ..).trans more, fun n => (names n).trans ⟨?_, ?_⟩⟩
      · rintro (⟨b, mem, same⟩ | ⟨b, mem, same⟩)
        · rcases List.mem_append.mp mem with before | last
          · exact .inl ⟨b, before, same⟩
          · exact .inr ⟨b, List.mem_singleton.mp last ▸ List.mem_cons_self .., same⟩
        · exact .inr ⟨b, List.mem_cons_of_mem a mem, same⟩
      · rintro (⟨b, mem, same⟩ | ⟨b, mem, same⟩)
        · exact .inl ⟨b, List.mem_append_left _ mem, same⟩
        · rcases List.mem_cons.mp mem with rfl | later
          · exact .inl ⟨b, List.mem_append_right _ (List.mem_singleton.mpr rfl), same⟩
          · exact .inr ⟨b, later, same⟩

theorem mergedSound (configs : Configs) (first : Nat) (rest : List Nat) :
    configs.getD first [] <+: merged configs first rest ∧
      ∀ n, Named (merged configs first rest) n ↔ ∃ id ∈ first :: rest, Named (configs.getD id []) n := by
  unfold merged
  generalize start : configs.getD first [] = target
  have step : ∀ (rest : List Nat) (target : Attributes),
      target <+: rest.foldl (fun target id => addMissingAttributes (configs.getD id []) target) target ∧
        ∀ n, Named (rest.foldl (fun target id => addMissingAttributes (configs.getD id []) target) target) n ↔
          Named target n ∨ ∃ id ∈ rest, Named (configs.getD id []) n := by
    intro rest
    induction rest with
    | nil => exact fun target => ⟨List.prefix_refl _, fun n => ⟨.inl, fun h => h.resolve_right fun ⟨id, mem, _⟩ => nomatch mem⟩⟩
    | cons id rest ih =>
      intro target
      obtain ⟨more, names⟩ := addMissingSound (configs.getD id []) target
      obtain ⟨later, all⟩ := ih (addMissingAttributes (configs.getD id []) target)
      refine ⟨more.trans later, fun n => (all n).trans ?_⟩
      rw [names n, List.exists_mem_cons_iff, or_assoc]
  obtain ⟨more, names⟩ := step rest target
  refine ⟨more, fun n => (names n).trans ?_⟩
  rw [List.exists_mem_cons_iff, start]

-- A name is added at most once.
theorem mergedCount (configs : Configs) (first : Nat) (rest : List Nat) (n : Bytes) :
    (merged configs first rest).countP (·.name = n) ≤ 1 ↔ (configs.getD first []).countP (·.name = n) ≤ 1 := by
  have one : ∀ (source target : Attributes), (addMissingAttributes source target).countP (·.name = n) ≤ 1 ↔
      target.countP (·.name = n) ≤ 1 := by
    intro source
    unfold addMissingAttributes
    induction source with
    | nil => exact fun target => Iff.rfl
    | cons a rest ih =>
      intro target
      rw [List.foldl_cons]
      split
      · exact ih target
      · rename_i fresh
        refine (ih (target ++ [a])).trans ?_
        rw [List.countP_append]
        by_cases own : a.name = n
        · have none_ : target.countP (·.name = n) = 0 := by
            refine List.countP_eq_zero.mpr fun b mem same => fresh (containsNamed.mpr ⟨b, mem, ?_⟩)
            rw [own]
            simpa using same
          have single : [a].countP (·.name = n) = 1 := by simp [own]
          rw [none_, single]
          decide
        · have nothing : [a].countP (·.name = n) = 0 := by simp [own]
          rw [nothing, Nat.add_zero]
  have all : ∀ (rest : List Nat) (target : Attributes),
      (rest.foldl (fun target id => addMissingAttributes (configs.getD id []) target) target).countP (·.name = n) ≤ 1 ↔
        target.countP (·.name = n) ≤ 1 := by
    intro rest
    induction rest with
    | nil => exact fun target => Iff.rfl
    | cons id rest ih => exact fun target => (ih _).trans (one _ target)
  exact all rest _

/-! ## Every list starts with the position -/

structure Kept (configs : Configs) : Prop where
  distinct : configs.Nodup
  headed : ∀ attributes ∈ configs, attributes.head?.map Attribute.name = some xyz

theorem internKept {configs : Configs} (kept : Kept configs) {attr : Attributes}
    (headed : attr.head?.map Attribute.name = some xyz) : Kept (getAttributeConfigIndex configs attr).1 := by
  refine ⟨internNodup kept.distinct attr, fun attributes mem => ?_⟩
  unfold getAttributeConfigIndex at mem
  split at mem
  · exact kept.headed attributes mem
  · rcases List.mem_append.mp mem with before | last
    · exact kept.headed attributes before
    · exact List.mem_singleton.mp last ▸ headed

theorem keptAt {configs : Configs} (kept : Kept configs) {id : Nat} (inside : id < configs.length) :
    ∃ position others, configs.getD id [] = position :: others ∧ position.name = xyz := by
  have mem : configs.getD id [] ∈ configs := by
    rw [List.getD_eq_getElem _ _ inside]
    exact List.getElem_mem inside
  have headed := kept.headed _ mem
  cases list : configs.getD id [] with
  | nil =>
    rw [list] at headed
    exact nomatch headed
  | cons position others =>
    rw [list] at headed
    exact ⟨position, others, rfl, Option.some.inj headed⟩

theorem memSortedIds {ids : List Nat} {id : Nat} : id ∈ sortedIds ids ↔ id ∈ ids := by
  rw [sortedIds, List.mem_eraseDups, (sortByPerm _ ids).mem_iff]

theorem mergedShape {configs : Configs} (kept : Kept configs) {first : Nat} (inside : first < configs.length)
    (rest : List Nat) : ∃ position more, merged configs first rest = position :: more ∧ position.name = xyz := by
  obtain ⟨position, others, list, named⟩ := keptAt kept inside
  obtain ⟨later, whole⟩ := (mergedSound configs first rest).1
  rw [list] at whole
  exact ⟨position, others ++ later, whole.symm, named⟩

-- The target as it is interned, for the first of the sorted ids.
def destinationOf (position : Attribute) (more : Attributes) (lod : Nat) (keep lodAll : Bool) : Attributes :=
  { position with type := ofFormat (MortonTree.typeFromLod lod), components := 1 } :: slim keep lodAll more

def mappingOf (configs : Configs) (sorted : List Nat) (target : Attributes) : Configs × LodMapping :=
  ((getAttributeConfigIndex configs target).1, ⟨(getAttributeConfigIndex configs target).2, target, sorted.map fun s =>
    (s, target.map fun a => createAttributeSourceLodInto a.name
      ((getAttributeConfigIndex configs target).1.getD s []))⟩)

theorem mappingShape {configs : Configs} (kept : Kept configs) {ids : List Nat} (some_ : ids ≠ [])
    (inside : ∀ id ∈ ids, id < configs.length) (lod : Nat) (keep lodAll : Bool) :
    ∃ first rest position more, sortedIds ids = first :: rest ∧ merged configs first rest = position :: more ∧
      position.name = xyz ∧ getLodAttributeMapping configs lod ids keep lodAll =
        some (mappingOf configs (sortedIds ids) (destinationOf position more lod keep lodAll)) := by
  cases sorted : sortedIds ids with
  | nil =>
    obtain ⟨id, mem⟩ := List.exists_mem_of_ne_nil ids some_
    have there := memSortedIds.mpr mem
    rw [sorted] at there
    exact nomatch there
  | cons first rest =>
    have first_ : first ∈ ids := memSortedIds.mp (sorted ▸ List.mem_cons_self ..)
    obtain ⟨position, more, shape, named⟩ := mergedShape kept (inside first first_) rest
    refine ⟨first, rest, position, more, rfl, shape, named, ?_⟩
    have target : lodTarget configs lod first rest keep lodAll = some (destinationOf position more lod keep lodAll) := by
      unfold merged at shape
      unfold lodTarget
      rw [shape]
      rfl
    unfold getLodAttributeMapping
    rw [sorted]
    dsimp only
    rw [target]
    rfl

theorem performKept {configs : Configs} (kept : Kept configs) {a : Action} (allowed : Allowed configs a) :
    Kept (perform configs a) := by
  cases a with
  | reader attributes => exact internKept kept allowed
  | sorter id type store indexType =>
    obtain ⟨position, others, list, named⟩ := keptAt kept allowed
    refine internKept kept ?_
    rw [list]
    exact congrArg some named
  | lodMapping lod ids keep lodAll =>
    obtain ⟨some_, inside⟩ := allowed
    obtain ⟨first, rest, position, more, _, _, named, mapping⟩ := mappingShape kept some_ inside lod keep lodAll
    have after : perform configs (.lodMapping lod ids keep lodAll) =
        (getAttributeConfigIndex configs (destinationOf position more lod keep lodAll)).1 := by
      unfold perform
      dsimp only
      rw [mapping]
      rfl
    rw [after]
    exact internKept kept (congrArg some named)

theorem reachedKept {configs : Configs} (reached : Reachable system configs) : Kept configs := by
  refine @reachableInvariant _ _ _ Kept _ ⟨?_, ?_⟩ reached
  · rintro _ rfl
    exact ⟨List.nodup_nil, fun _ mem => nomatch mem⟩
  · rintro configs a _ kept ⟨allowed, rfl⟩
    exact performKept kept allowed

/-! ## Which names are left -/

theorem namedCons {position : Attribute} {more : Attributes} {n : Bytes} :
    Named (position :: more) n ↔ position.name = n ∨ Named more n := List.exists_mem_cons_iff ..

theorem visualNamed {a : Attribute} : visual a = true ↔ IsVisual a.name := by
  simp [visual, IsVisual, or_assoc]

theorem visualOther {n : Bytes} (visual_ : IsVisual n) : ¬IsOriginalOrder n := by
  rcases visual_ with rfl | rfl | rfl <;> unfold IsOriginalOrder <;> decide

theorem xyzOther : ¬IsOriginalOrder xyz := by
  unfold IsOriginalOrder
  decide

theorem sorterOther : sorterOriginalOrder ≠ originalOrder := by decide

-- Everything but the sought name stays.
theorem namedErased {l : Attributes} {n : Bytes} (other : n ≠ originalOrder) :
    Named (l.eraseP fun a => a.name = originalOrder) n ↔ Named l n := by
  constructor
  · rintro ⟨a, mem, named⟩
    exact ⟨a, List.mem_of_mem_eraseP mem, named⟩
  · rintro ⟨a, mem, named⟩
    refine ⟨a, (List.mem_eraseP_of_neg ?_).mpr mem, named⟩
    rw [decide_eq_true_eq, named]
    exact other

theorem erasedNamed {l : Attributes} :
    Named (l.eraseP fun a => a.name = originalOrder) originalOrder ↔ ¬l.countP (·.name = originalOrder) ≤ 1 := by
  induction l with
  | nil => exact ⟨fun ⟨_, mem, _⟩ => (nomatch mem), fun many => absurd (Nat.zero_le 1) many⟩
  | cons a rest ih =>
    by_cases own : a.name = originalOrder
    · have some_ : Named rest originalOrder ↔ 0 < rest.countP (·.name = originalOrder) := by
        rw [List.countP_pos_iff]
        simp [Named]
      rw [List.eraseP_cons_of_pos (by simpa using own), List.countP_cons_of_pos (by simpa using own), some_]
      omega
    · rw [List.eraseP_cons_of_neg (by simpa using own), List.countP_cons_of_neg (by simpa using own), namedCons, ih]
      exact ⟨fun h => h.resolve_left own, .inr⟩

theorem slimVisual {position : Attribute} {more : Attributes} (headed : position.name = xyz) (n : Bytes) :
    Named (position :: slim false false more) n ↔
      Named (position :: more) n ∧ ¬IsOriginalOrder n ∧ (n = xyz ∨ IsVisual n) := by
  have left : Named (slim false false more) n ↔ Named more n ∧ IsVisual n := by
    constructor
    · rintro ⟨a, mem, rfl⟩
      obtain ⟨there, seen⟩ := List.mem_filter.mp mem
      exact ⟨⟨a, List.mem_of_mem_eraseP there, rfl⟩, visualNamed.mp seen⟩
    · rintro ⟨⟨a, mem, rfl⟩, seen⟩
      refine ⟨a, List.mem_filter.mpr ⟨(List.mem_eraseP_of_neg ?_).mpr mem, visualNamed.mpr seen⟩, rfl⟩
      rw [decide_eq_true_eq]
      exact fun own => visualOther seen (.inl own)
  rw [namedCons, namedCons, left, headed]
  constructor
  · rintro (rfl | ⟨named, seen⟩)
    · exact ⟨.inl rfl, xyzOther, .inl rfl⟩
    · exact ⟨.inr named, visualOther seen, .inr seen⟩
  · rintro ⟨named, _, rfl | seen⟩
    · exact .inl rfl
    · rcases named with rfl | named
      · exact .inl rfl
      · exact .inr ⟨named, seen⟩

-- Only the fourteen characters are looked for, and only once.
theorem slimAll {position : Attribute} {more : Attributes} (headed : position.name = xyz) :
    (∀ n, Named (position :: slim false true more) n ↔ Named (position :: more) n ∧ ¬IsOriginalOrder n) ↔
      ¬Named (position :: more) sorterOriginalOrder ∧ (position :: more).countP (·.name = originalOrder) ≤ 1 := by
  have notHead : ¬position.name = originalOrder := headed ▸ fun h => xyzOther (.inl h)
  have count : (position :: more).countP (·.name = originalOrder) = more.countP (·.name = originalOrder) :=
    List.countP_cons_of_neg (by simpa using notHead)
  have left : slim false true more = more.eraseP fun a => a.name = originalOrder := rfl
  rw [count, left]
  constructor
  · intro all
    constructor
    · intro named
      refine ((all sorterOriginalOrder).mp (namedCons.mpr ?_)).2 (.inr rfl)
      exact (namedCons.mp named).imp_right (namedErased sorterOther).mpr
    · refine Decidable.not_not.mp fun many => ((all originalOrder).mp (namedCons.mpr (.inr ?_))).2 (.inl rfl)
      exact erasedNamed.mpr many
  · rintro ⟨noSorter, once⟩ n
    by_cases own : n = originalOrder
    · subst own
      refine ⟨fun named => ?_, fun h => absurd (.inl rfl) h.2⟩
      rcases namedCons.mp named with head | left_
      · exact absurd head notHead
      · exact absurd once (erasedNamed.mp left_)
    · rw [namedCons, namedErased own, ← namedCons]
      refine ⟨fun named => ⟨named, ?_⟩, And.left⟩
      rintro (rfl | rfl)
      · exact own rfl
      · exact noSorter named

-- The sorter's name is one character longer than the name that is taken away.
def NamesRightWhen (configs : Configs) (ids : List Nat) (keep lodAll : Bool) : Prop :=
  keep = true ∨ lodAll = false ∨ (∀ id ∈ ids, ¬Named (configs.getD id []) sorterOriginalOrder) ∧
    ∀ first ∈ (sortedIds ids).head?, (configs.getD first []).countP (·.name = originalOrder) ≤ 1

theorem slimNames {configs : Configs} {ids rest : List Nat} {first : Nat} {position : Attribute} {more : Attributes}
    (sorted : sortedIds ids = first :: rest) (shape : merged configs first rest = position :: more)
    (headed : position.name = xyz) (lod : Nat) (keep lodAll : Bool) :
    (∀ n, Named (destinationOf position more lod keep lodAll) n ↔ Wanted configs ids keep lodAll n) ↔
      NamesRightWhen configs ids keep lodAll := by
  have union : ∀ n, Named (position :: more) n ↔ ∃ id ∈ ids, Named (configs.getD id []) n := fun n => by
    rw [← shape, (mergedSound configs first rest).2 n, ← sorted]
    simp only [memSortedIds]
  have count : (position :: more).countP (·.name = originalOrder) ≤ 1 ↔
      ∀ first ∈ (sortedIds ids).head?, (configs.getD first []).countP (·.name = originalOrder) ≤ 1 := by
    rw [← shape, mergedCount, sorted]
    simp
  have named : ∀ n, Named (destinationOf position more lod keep lodAll) n ↔ Named (position :: slim keep lodAll more) n :=
    fun n => by rw [destinationOf, namedCons, namedCons]
  unfold NamesRightWhen Wanted
  simp only [named, ← union]
  cases keep with
  | true =>
    have whole : slim true lodAll more = more := rfl
    simp [whole]
  | false =>
    cases lodAll with
    | false => simpa using fun n => slimVisual headed n
    | true =>
      have all := @slimAll position more headed
      rw [count, union] at all
      simpa using all

/-! ## What an entry points to -/

def EntryRight (attributes : Attributes) (n : Bytes) : Option (Nat × Attribute) → Prop
  | some (i, b) => attributes[i]? = some b ∧ b.name = n
  | none => ¬Named attributes n

structure MappingRight (configs after : Configs) (ids : List Nat) (mapping : LodMapping) : Prop where
  kept : configs <+: after
  interned : after[mapping.destinationId]? = some mapping.destination
  ascending : (mapping.source.map Prod.fst).Pairwise (· < ·)
  same : ∀ id, id ∈ mapping.source.map Prod.fst ↔ id ∈ ids
  slots : ∀ entry ∈ mapping.source, List.Forall₂ (fun slot found => EntryRight (configs.getD entry.1 []) slot.name found)
    mapping.destination entry.2

theorem sourceLodInto (n : Bytes) (attributes : Attributes) :
    EntryRight attributes n (createAttributeSourceLodInto n attributes) := by
  unfold createAttributeSourceLodInto
  cases found : attributes.zipIdx.find? fun a => a.1.name = n with
  | none =>
    rintro ⟨a, mem, named⟩
    obtain ⟨i, inside, rfl⟩ := List.getElem_of_mem mem
    have different := List.find?_eq_none.mp found (attributes[i], i)
      (List.mem_zipIdx_iff_getElem?.mpr (List.getElem?_eq_getElem inside))
    exact different (by simpa using named)
  | some pair =>
    refine ⟨List.mem_zipIdx_iff_getElem?.mp (List.mem_of_find?_eq_some found), ?_⟩
    simpa using List.find?_some found

theorem sortedAscending (ids : List Nat) : (sortedIds ids).Pairwise (· < ·) :=
  eraseDupsAscending (sortBySorted (fun id => id) ids)

theorem mappingOfRight {configs : Configs} {ids : List Nat} (inside : ∀ id ∈ ids, id < configs.length) (target : Attributes) :
    MappingRight configs (mappingOf configs (sortedIds ids) target).1 ids (mappingOf configs (sortedIds ids) target).2 := by
  have ids_ : (mappingOf configs (sortedIds ids) target).2.source.map Prod.fst = sortedIds ids := by
    unfold mappingOf
    rw [List.map_map]
    exact List.map_id _
  refine ⟨internKeeps configs target, internAt configs target, by rw [ids_]; exact sortedAscending ids,
    fun id => by rw [ids_]; exact memSortedIds, fun entry mem => ?_⟩
  obtain ⟨s, there, rfl⟩ := List.mem_map.mp mem
  have old : (getAttributeConfigIndex configs target).1.getD s [] = configs.getD s [] := by
    obtain ⟨more, whole⟩ := internKeeps configs target
    rw [← whole, List.getD_append _ _ _ _ (inside s (memSortedIds.mp there))]
  dsimp only
  rw [old]
  exact List.forall₂_map_right_iff.mpr (List.forall₂_same.mpr fun slot _ => sourceLodInto slot.name _)

/-! ## The ids after a restart, and the bytes that are refused -/

def Survives (configs : Configs) : Prop := ∃ bytes, serialize configs = some bytes ∧ deserialize [] bytes = (configs, none)

-- What `serialize` writes for some lists: no list twice, only the types and components that exist, nothing behind them.
def Wellformed (bytes : Bytes) : Prop := ∃ lists, bytes = image lists ∧ Counted lists ∧ lists.Nodup ∧
  ∀ attributes ∈ lists, ∀ a ∈ attributes, a.type.toNat < 14 ∧ 0 < a.components.toNat ∧ a.components.toNat ≤ 5

def Refuses (bytes : Bytes) : Prop := ¬Wellformed bytes → (deserialize [] bytes).2 ≠ none

theorem lengthWritten (attributes : Attributes) : attributes.length ≤ (writeAttributes attributes).length := by
  have each : attributes.length ≤ (attributes.flatMap writeAttribute).length := by
    induction attributes with
    | nil => exact Nat.le_refl _
    | cons a rest ih =>
      rw [List.flatMap_cons, List.length_append, List.length_cons]
      have own : 4 ≤ (writeAttribute a).length := by
        rw [writeAttribute, List.length_append, littleEndianLength]
        omega
      omega
  rw [writeAttributes, List.length_append]
  omega

theorem lengthImage (lists : List Attributes) :
    lists.length ≤ (image lists).length ∧ ∀ attributes ∈ lists, attributes.length ≤ (image lists).length := by
  have each : lists.length ≤ (lists.flatMap writeAttributes).length ∧
      ∀ attributes ∈ lists, attributes.length ≤ (lists.flatMap writeAttributes).length := by
    induction lists with
    | nil => exact ⟨Nat.le_refl _, fun _ mem => nomatch mem⟩
    | cons attributes rest ih =>
      obtain ⟨count, sizes⟩ := ih
      have own := lengthWritten attributes
      have four : 4 ≤ (writeAttributes attributes).length := by
        rw [writeAttributes, List.length_append, littleEndianLength]
        omega
      rw [List.flatMap_cons, List.length_append, List.length_cons]
      refine ⟨by omega, fun other mem => ?_⟩
      rcases List.mem_cons.mp mem with rfl | later
      · omega
      · have within := sizes other later
        omega
  rw [image, List.length_append]
  exact ⟨by omega, fun attributes mem => Nat.le_add_left_of_le (each.2 attributes mem)⟩

theorem survivesWhen {configs : Configs} (kept : Kept configs) : Survives configs ↔ (image configs).length < 2 ^ 32 := by
  unfold Survives serialize
  constructor
  · rintro ⟨bytes, written, _⟩
    split at written
    · assumption
    · cases written
  · intro small
    obtain ⟨count, sizes⟩ := lengthImage configs
    have counted : Counted configs :=
      ⟨Nat.lt_of_le_of_lt count small, fun attributes mem => Nat.lt_of_le_of_lt (sizes attributes mem) small⟩
    refine ⟨image configs, if_pos small, deserializeExact.mpr ⟨configs, [], counted, (List.append_nil _).symm, ?_⟩⟩
    exact (@internAllFresh [] configs kept.distinct).symm

theorem writtenUnique {one other : Attributes} {rest more : Bytes} (first : one.length < 2 ^ 32) (second : other.length < 2 ^ 32)
    (same : writeAttributes one ++ rest = writeAttributes other ++ more) : one = other ∧ rest = more := by
  unfold writeAttributes at same
  rw [List.append_assoc, List.append_assoc] at same
  obtain ⟨counts, bodies⟩ := List.append_inj same (by rw [littleEndianLength, littleEndianLength])
  have count : one.length = other.length := by rw [← size4 first, counts, size4 second]
  have back := readAttributesBack one rest
  rw [count, bodies, readAttributesBack] at back
  cases back
  exact ⟨rfl, rfl⟩

theorem imageUnique {one other : List Attributes} {rest more : Bytes} (first : Counted one) (second : Counted other)
    (same : image one ++ rest = image other ++ more) : one = other ∧ rest = more := by
  unfold image at same
  rw [List.append_assoc, List.append_assoc] at same
  obtain ⟨counts, bodies⟩ := List.append_inj same (by rw [littleEndianLength, littleEndianLength])
  have count : one.length = other.length := by rw [← size4 first.1, counts, size4 second.1]
  clear counts same
  obtain ⟨few, sized⟩ := first
  obtain ⟨few', sized'⟩ := second
  clear few few'
  induction one generalizing other with
  | nil =>
    cases List.eq_nil_of_length_eq_zero count.symm
    exact ⟨rfl, bodies⟩
  | cons a later ih =>
    cases other with
    | nil => exact nomatch count
    | cons b others =>
      rw [List.flatMap_cons, List.flatMap_cons, List.append_assoc, List.append_assoc] at bodies
      obtain ⟨here, sizedLater⟩ := List.forall_mem_cons.mp sized
      obtain ⟨there, sizedOthers⟩ := List.forall_mem_cons.mp sized'
      obtain ⟨same, after⟩ := writtenUnique here there bodies
      obtain ⟨equal, rest_⟩ := ih after (Nat.succ.inj count) sizedLater sizedOthers
      exact ⟨by rw [same, equal], rest_⟩

-- Complete lists are taken whatever follows them, and whatever they say.
def RefusesWhen (bytes : Bytes) : Prop := ∀ lists rest, Counted lists → bytes = image lists ++ rest →
  rest = [] ∧ lists.Nodup ∧
    ∀ attributes ∈ lists, ∀ a ∈ attributes, a.type.toNat < 14 ∧ 0 < a.components.toNat ∧ a.components.toNat ≤ 5

theorem refusesWhen (bytes : Bytes) : Refuses bytes ↔ RefusesWhen bytes := by
  constructor
  · intro refuses lists rest counted whole
    have taken : (deserialize [] bytes).2 = none := by
      rw [deserializeExact.mpr ⟨lists, rest, counted, whole, rfl⟩]
    obtain ⟨others, bytes_, counted', distinct, known⟩ := Classical.not_not.mp fun not => refuses not taken
    obtain ⟨rfl, rfl⟩ := imageUnique counted counted' (by rw [← whole, bytes_, List.append_nil])
    exact ⟨rfl, distinct, known⟩
  · intro when_ malformed taken
    have pair : deserialize [] bytes = ((deserialize [] bytes).1, none) := by rw [← taken]
    obtain ⟨lists, rest, counted, whole, _⟩ := deserializeExact.mp pair
    obtain ⟨rfl, distinct, known⟩ := when_ lists rest counted whole
    exact malformed ⟨lists, by rw [whole, List.append_nil], counted, distinct, known⟩

/-! ## The configurations over any calls -/

def InterningRight (configs : Configs) (lists : List Attributes) : Prop :=
  ∀ (p q i j : Nat) (a b : Attributes), lists[p]? = some a → lists[q]? = some b →
    (internAll configs lists).2[p]? = some i → (internAll configs lists).2[q]? = some j → (i = j ↔ a = b)

def LodMappingRight (configs : Configs) (lod : Nat) (ids : List Nat) (keep lodAll : Bool) : Prop :=
  ∃ after mapping, getLodAttributeMapping configs lod ids keep lodAll = some (after, mapping) ∧
    MappingRight configs after ids mapping ∧ ∀ n, Named mapping.destination n ↔ Wanted configs ids keep lodAll n

theorem lodMappingRightWhen {configs : Configs} (kept : Kept configs) {ids : List Nat} (some_ : ids ≠ [])
    (inside : ∀ id ∈ ids, id < configs.length) (lod : Nat) (keep lodAll : Bool) :
    LodMappingRight configs lod ids keep lodAll ↔ NamesRightWhen configs ids keep lodAll := by
  obtain ⟨first, rest, position, more, sorted, shape, named, mapping⟩ := mappingShape kept some_ inside lod keep lodAll
  refine Iff.trans ?_ (slimNames sorted shape named lod keep lodAll)
  constructor
  · rintro ⟨after, found, made, _, names⟩
    cases Option.some.inj (mapping.symm.trans made)
    exact names
  · intro names
    exact ⟨_, _, mapping, mappingOfRight inside _, names⟩

theorem configsRight {configs : Configs} (reached : Reachable system configs) (lists : List Attributes) {ids : List Nat}
    (some_ : ids ≠ []) (inside : ∀ id ∈ ids, id < configs.length) (lod : Nat) (keep lodAll : Bool) (bytes : Bytes) :
    (InterningRight configs lists ∧ LodMappingRight configs lod ids keep lodAll ∧ Survives configs ∧ Refuses bytes) ↔
      (NamesRightWhen configs ids keep lodAll ∧ (image configs).length < 2 ^ 32 ∧ RefusesWhen bytes) := by
  have kept := reachedKept reached
  have interning : InterningRight configs lists := fun p q i j a b first second one other =>
    internedSame kept.distinct lists first second one other
  rw [lodMappingRightWhen kept some_ inside, survivesWhen kept, refusesWhen]
  exact ⟨And.right, fun h => ⟨interning, h⟩⟩

-- A file of positions and intensities, sorted with its order stored, and one with colours.
theorem xyzSized : xyz.length < 2 ^ 32 := by decide
theorem rgbSized : rgb.length < 2 ^ 32 := by decide
theorem intensitySized : intensity.length < 2 ^ 32 := by decide

def plain : Attributes := [⟨xyz, 5, 3, xyzSized⟩, ⟨intensity, 2, 1, intensitySized⟩]
def coloured : Attributes := [⟨xyz, 5, 3, xyzSized⟩, ⟨rgb, 2, 3, rgbSized⟩, ⟨intensity, 2, 1, intensitySized⟩]
def storing : List Action := [.reader plain, .sorter 0 6 true u32, .reader coloured]
def stored : Configs := storing.foldl perform []

theorem storedReached : Reachable system stored :=
  reachableUnder (@reachableAllowed _ _ [] Allowed (fun _ _ => True) perform storing (by decide))

theorem configsRightStored : InterningRight stored [plain, coloured, plain] ∧ LodMappingRight stored 3 [2, 0] false true ∧
    Survives stored ∧ Refuses [1, 0, 0, 0] := by
  refine (configsRight storedReached [plain, coloured, plain] (by decide) (by decide) 3 false true [1, 0, 0, 0]).mpr
    ⟨?_, by decide +kernel, ?_⟩
  · exact .inr (.inr ⟨by unfold Named; decide, by decide⟩)
  · intro lists rest counted whole
    have taken : (deserialize [] [1, 0, 0, 0]).2 = none :=
      congrArg Prod.snd (deserializeExact.mpr ⟨lists, rest, counted, whole, rfl⟩)
    exact absurd taken (by decide)

theorem sorterNameStays : Reachable system stored ∧
    (getLodAttributeMapping stored 3 [1] false true).map (fun m => m.2.destination.map Attribute.name) =
      some [xyz, intensity, sorterOriginalOrder] ∧ ¬LodMappingRight stored 3 [1] false true := by
  refine ⟨storedReached, by decide, fun right => ?_⟩
  rcases (lodMappingRightWhen (reachedKept storedReached) (by decide) (by decide) 3 false true).mp right with
    keep | slim_ | ⟨none_, _⟩
  · exact nomatch keep
  · exact nomatch slim_
  · exact none_ 1 (by decide) ⟨⟨sorterOriginalOrder, u32, 1, by decide⟩, by decide, rfl⟩

end Dewfall.AttributeMapping
