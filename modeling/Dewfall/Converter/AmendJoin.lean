import Dewfall.Converter.AmendSort
import Dewfall.General.Scatter

/-! The values of a sorted file joined to the addresses of a slice: every address takes the last value of its
key, or keeps the zeros it starts with. How the slice was cut is not treated. -/
namespace Dewfall.AmendJoin
open General General.KeyedStream General.Scatter SpillFile TreeMerge AttributeAmend AmendSort

/-! ## Reading ahead -/

def Ahead : Option (Bytes × Reader) → List Bytes → Prop
  | none, l => l = []
  | some (record, r), l => ∃ rest, l = record :: rest ∧ Reads r rest

def putRecord (buffers : Buffers) (a : Address) (record : Bytes) : Buffers := put buffers a (record.drop 8)

theorem lastOfKeyReads (fuel key : Nat) {scratch : Bytes} {r : Reader} {l : List Bytes} (reads : Reads r l)
    (enough : l.length < fuel) :
    ∃ run rest ahead, l = run ++ rest ∧ (∀ record ∈ run, recordKey record = key) ∧
      (∀ record ∈ rest.head?, recordKey record ≠ key) ∧ Ahead ahead rest ∧
      lastOfKey fuel key scratch r = .ok ((scratch :: run).getLastD [], ahead) := by
  induction fuel generalizing scratch r l with
  | zero => cases enough
  | succ fuel ih =>
    rw [lastOfKey]
    cases l with
    | nil =>
      rw [nextFinished reads]
      exact ⟨[], [], none, rfl, by simp, by simp, rfl, rfl⟩
    | cons record later =>
      obtain ⟨after, read, left, -⟩ := nextRecord reads
      rw [read]
      dsimp only
      split
      · rename_i same
        obtain ⟨run, rest, ahead, whole, own, other, here, result⟩ :=
          @ih record after later left (Nat.lt_of_succ_lt_succ enough)
        refine ⟨record :: run, rest, ahead, by rw [whole]; rfl, ?_, other, here, result⟩
        intro one mem
        rcases List.mem_cons.mp mem with rfl | old
        · exact same
        · exact own one old
      · rename_i apart
        exact ⟨[], record :: later, some (record, after), rfl, by simp, by simpa using apart, ⟨later, rfl, left⟩, rfl⟩

/-! ## The merge -/

-- By induction on the fuel: every round reads the records of one key.
theorem mergeValuesJoined (fuel : Nat) {ahead : Option (Bytes × Reader)} {l : List Bytes} {addresses : List Address}
    (buffers : Buffers) (here : Ahead ahead l) (ordered : Rising Address.key addresses) (enough : l.length ≤ fuel) :
    ∃ buffers', mergeValues fuel ahead addresses buffers = .ok buffers' ∧
      Joined recordKey Address.key putRecord l addresses buffers buffers' := by
  induction fuel generalizing ahead l addresses buffers with
  | zero =>
    obtain rfl : l = [] := List.length_eq_zero_iff.mp (Nat.le_zero.mp enough)
    refine ⟨buffers, ?_, .none addresses buffers⟩
    unfold mergeValues
    rfl
  | succ fuel ih =>
    cases ahead with
    | none =>
      obtain rfl : l = [] := here
      exact ⟨buffers, rfl, .none addresses buffers⟩
    | some first =>
      obtain ⟨record, r⟩ := first
      obtain ⟨rest, rfl, reads⟩ := here
      cases addresses with
      | nil => exact ⟨buffers, rfl, .ended _ buffers⟩
      | cons a others =>
        rw [List.length_cons] at enough
        obtain ⟨run, left, ahead, rfl, own, other, next, result⟩ :=
          @lastOfKeyReads (fuel + 1) (recordKey record) record r rest reads (by omega)
        rw [mergeValues]
        dsimp only
        rw [result]
        dsimp only
        obtain ⟨last, final⟩ : ∃ last, (record :: run).getLast? = some last :=
          ⟨_, List.getLast?_eq_some_getLast (List.cons_ne_nil record run)⟩
        have scratch : (record :: run).getLastD [] = last := by rw [List.getLastD_eq_getLast?, final, Option.getD_some]
        rw [scratch]
        obtain ⟨before, hit, after, skipped, split_, taken, past, below, own_, beyond⟩ :=
          targetsCut ordered (recordKey record)
        have whole : a :: others = before ++ (hit ++ after) := by
          rw [← skipped, ← split_]
          exact (List.takeWhile_append_dropWhile ..).symm
        have later : Rising Address.key after := by
          rw [whole] at ordered
          exact ordered.sublist ((List.sublist_append_right hit after).trans (List.sublist_append_right before _))
        obtain ⟨buffers', done, joined⟩ := @ih ahead left after
          (hit.foldl (fun buffers a => put buffers a (last.drop 8)) buffers) next later
          (by rw [List.length_append] at enough; omega)
        refine ⟨buffers', ?_, ?_⟩
        · rw [taken, past]
          exact done
        · rw [whole]
          have owned : ∀ one ∈ record :: run, recordKey one = recordKey record := by
            intro one mem
            rcases List.mem_cons.mp mem with rfl | old
            · rfl
            · exact own one old
          exact .run owned other below own_ beyond final joined

theorem joinValuesFold {l : List Bytes} {width : Nat} (positive : 0 < width) (sized : ∀ record ∈ l, record.length = width)
    (rising : Rising recordKey l) {addresses : List Address} (ordered : Rising Address.key addresses) (buffers : Buffers) :
    joinValues l.flatten width addresses buffers =
      .ok (addresses.foldl (putLast recordKey Address.key putRecord l) buffers) := by
  have reads := openReads positive sized
  have long := flattenLength positive sized
  have result : ∃ ahead, Ahead ahead l ∧ joinValues l.flatten width addresses buffers =
      mergeValues (l.flatten.length + 1) ahead addresses buffers := by
    unfold joinValues
    cases l with
    | nil =>
      rw [nextFinished reads]
      exact ⟨none, rfl, rfl⟩
    | cons record rest =>
      obtain ⟨after, read, later, -⟩ := nextRecord reads
      rw [read]
      exact ⟨some (record, after), ⟨rest, rfl, later⟩, rfl⟩
  obtain ⟨ahead, here, same⟩ := result
  obtain ⟨buffers', done, joined⟩ := mergeValuesJoined (l.flatten.length + 1) buffers here ordered (by omega)
  rw [same, done, joinedFold joined rising ordered]

/-! ## Buffers -/

def slotAt (buffers : Buffers) (unit slot : Nat) : Option Bytes := buffers[unit]?.bind (·[slot]?)

theorem putSlot (buffers : Buffers) (a : Address) (value : Bytes) (unit slot : Nat) :
    slotAt (put buffers a value) unit slot =
      if a.unit = unit ∧ a.slot = slot then (slotAt buffers unit slot).map fun _ => value
      else slotAt buffers unit slot := by
  unfold slotAt put
  rw [List.getElem?_modify]
  cases buffers[unit]? with
  | none => simp
  | some buffer =>
    by_cases own : a.unit = unit
    · by_cases same : a.slot = slot
      · subst same
        simp only [own, Option.map_eq_map, Option.map_some, if_true, Option.bind_some, and_self, List.getElem?_set_self']
        rfl
      · simp [own, same, List.getElem?_set_ne same]
    · simp [own]

theorem putLengths (buffers : Buffers) (a : Address) (value : Bytes) :
    (put buffers a value).map List.length = buffers.map List.length := by
  refine List.ext_getElem? fun i => ?_
  unfold put
  rw [List.getElem?_map, List.getElem?_map, List.getElem?_modify]
  by_cases own : a.unit = i
  · cases buffers[i]? with
    | none => rfl
    | some buffer => simp [own]
  · simp [own]

-- What an address takes from the sorted values.
def valueOf (l : List Bytes) (key : Nat) : Option Bytes := (lastOf recordKey key l).map (·.drop 8)

theorem putLastValue (l : List Bytes) (buffers : Buffers) (a : Address) :
    putLast recordKey Address.key putRecord l buffers a = ((valueOf l a.key).map (put buffers a)).getD buffers := by
  unfold putLast valueOf
  cases lastOf recordKey a.key l with
  | none => rfl
  | some record => rfl

theorem putAllLengths (l : List Bytes) (targets : List Address) (buffers : Buffers) :
    (targets.foldl (putLast recordKey Address.key putRecord l) buffers).map List.length = buffers.map List.length := by
  induction targets generalizing buffers with
  | nil => rfl
  | cons a rest ih =>
    rw [List.foldl_cons, ih, putLastValue]
    cases valueOf l a.key with
    | none => rfl
    | some value => exact putLengths buffers a value

def place (a : Address) : Nat × Nat := (a.unit, a.slot)

theorem putScatters (l : List Bytes) : Scatters (fun buffers p => slotAt buffers p.1 p.2)
    (putLast recordKey Address.key putRecord l) place fun a old => (valueOf l a.key).getD old := by
  refine ⟨fun buffers a p => ?_⟩
  rw [putLastValue]
  cases valueOf l a.key with
  | none => simp
  | some value =>
    refine (putSlot buffers a value p.1 p.2).trans ?_
    simp only [place, Prod.ext_iff, Option.getD_some]

/-! ## The addresses of a slice -/

def addressesFrom (first : Nat) : List (List Nat) → List Address
  | [] => []
  | keys :: rest => (keys.mapIdx fun slot key => ⟨key, first, slot⟩) ++ addressesFrom (first + 1) rest

theorem addressesAppend (first : Nat) (l : List (List Nat)) (keys : List Nat) :
    addressesFrom first (l ++ [keys]) =
      addressesFrom first l ++ keys.mapIdx fun slot key => ⟨key, first + l.length, slot⟩ := by
  induction l generalizing first with
  | nil => simp [addressesFrom]
  | cons other rest ih =>
    rw [List.cons_append, addressesFrom, ih, addressesFrom, List.append_assoc, List.length_cons, Nat.add_right_comm,
      Nat.add_assoc]

theorem addressMem {first : Nat} {l : List (List Nat)} {a : Address} :
    a ∈ addressesFrom first l ↔ ∃ i keys, l[i]? = some keys ∧ a.unit = first + i ∧ keys[a.slot]? = some a.key := by
  induction l generalizing first with
  | nil => simp [addressesFrom]
  | cons keys rest ih =>
    rw [addressesFrom, List.mem_append, ih, List.mem_mapIdx]
    constructor
    · rintro (⟨slot, bound, rfl⟩ | ⟨i, other, there, unit, key⟩)
      · exact ⟨0, keys, rfl, rfl, List.getElem?_eq_getElem bound⟩
      · exact ⟨i + 1, other, there, by omega, key⟩
    · rintro ⟨i, other, there, unit, key⟩
      cases i with
      | zero =>
        obtain rfl : keys = other := Option.some.inj there
        obtain ⟨bound, same⟩ := List.getElem?_eq_some_iff.mp key
        refine Or.inl ⟨a.slot, bound, ?_⟩
        rw [same, ← Nat.add_zero first, ← unit]
      | succ i => exact Or.inr ⟨i, other, there, by omega, key⟩

theorem addressesDistinct (first : Nat) (l : List (List Nat)) : ((addressesFrom first l).map place).Nodup := by
  induction l generalizing first with
  | nil => exact List.nodup_nil
  | cons keys rest ih =>
    rw [addressesFrom, List.map_append]
    refine List.Nodup.append ?_ (ih (first + 1)) fun at_ here there => ?_
    · refine List.pairwise_iff_getElem.mpr fun i j left right less same => ?_
      simp only [List.getElem_map, List.getElem_mapIdx, place, Prod.mk.injEq, true_and] at same
      omega
    · obtain ⟨a, mem, rfl⟩ := List.mem_map.mp here
      obtain ⟨slot, bound, rfl⟩ := List.mem_mapIdx.mp mem
      obtain ⟨b, other, same⟩ := List.mem_map.mp there
      obtain ⟨i, _, _, unit, _⟩ := addressMem.mp other
      have apart := congrArg Prod.fst same
      simp only [place] at apart
      omega

-- Where all addresses of a slice are joined, every point has the last value of its key or what it started with.
theorem sliceJoined {l : List Bytes} {width : Nat} (positive : 0 < width) (sized : ∀ record ∈ l, record.length = width)
    (rising : Rising recordKey l) (sort : AddressSort) (keys : List (List Nat)) (zero : Bytes) :
    joinValues l.flatten width (sort.sort (addressesFrom 0 keys)) (keys.map fun keys => List.replicate keys.length zero) =
      .ok (keys.map fun keys => keys.map fun key => (valueOf l key).getD zero) := by
  have perm := sort.perm (addressesFrom 0 keys)
  have distinct : ((sort.sort (addressesFrom 0 keys)).map place).Nodup :=
    (perm.map place).nodup_iff.mpr (addressesDistinct 0 keys)
  rw [joinValuesFold positive sized rising (sort.sorted _)]
  congr 1
  have lengths := putAllLengths l (sort.sort (addressesFrom 0 keys)) (keys.map fun keys => List.replicate keys.length zero)
  have each := fun a mem => scatterOwn (putScatters l) distinct (b := a) mem
    (keys.map fun keys => List.replicate keys.length zero)
  generalize (sort.sort (addressesFrom 0 keys)).foldl (putLast recordKey Address.key putRecord l)
    (keys.map fun keys => List.replicate keys.length zero) = buffers at *
  refine List.ext_getElem? fun i => ?_
  have length := congrArg (·[i]?) lengths
  simp only [List.getElem?_map, Option.map_map] at length ⊢
  cases there : keys[i]? with
  | none =>
    rw [there] at length
    simpa using length
  | some own =>
    rw [there] at length
    obtain ⟨buffer, here, same⟩ := Option.map_eq_some_iff.mp length
    rw [here, Option.map_some]
    congr 1
    refine List.ext_getElem? fun slot => ?_
    cases key : own[slot]? with
    | none =>
      have short := List.getElem?_eq_none_iff.mp key
      simp only [Function.comp, List.length_replicate] at same
      rw [List.getElem?_map, key, List.getElem?_eq_none_iff.mpr (by omega)]
      rfl
    | some k =>
      have bound := (List.getElem?_eq_some_iff.mp key).1
      have found := each ⟨k, i, slot⟩ (perm.mem_iff.mpr (addressMem.mpr ⟨i, own, there, (Nat.zero_add i).symm, key⟩))
      simp only [slotAt, place, List.getElem?_map, there, here, Option.map_some, Option.bind_some] at found
      rw [found, List.getElem?_map, key, List.getElem?_replicate, if_pos bound]
      rfl

end Dewfall.AmendJoin
