import Dewfall.General.DenseMap
import Dewfall.General.Eviction
import Mathlib.Data.BitVec
import Mathlib.Data.List.Perm.Subperm

/-! The cache that gives up what was used longest ago: list nodes, the most recent first, and a map from keys to
nodes. A node's number stands for the iterator to it; `none` is an iterator followed to a node that is not there.
Every call holds one lock, so calls are steps; the hash and the equality of keys are taken to agree. -/
namespace Dewfall.LruCache
open General General.Eviction

structure Entry (κ ν : Type) where
  node : Nat
  key : κ
  value : ν
  size : BitVec 64
  deriving DecidableEq

structure Cache (κ ν : Type) where
  maxBytes : BitVec 64
  currentBytes : BitVec 64
  hitCount : BitVec 64
  missCount : BitVec 64
  lruList : List (Entry κ ν)
  map : DenseMap κ Nat
  -- The number of the next node.
  nodes : Nat

variable {κ ν : Type}

def new (maxBytes : BitVec 64) : Cache κ ν := ⟨maxBytes, 0, 0, 0, [], DenseMap.empty, 0⟩

def deref (l : List (Entry κ ν)) (it : Nat) : Option (Entry κ ν) := l.find? fun e => e.node = it

def unlink (l : List (Entry κ ν)) (it : Nat) : List (Entry κ ν) := l.filter fun e => e.node ≠ it

def assign (l : List (Entry κ ν)) (e : Entry κ ν) : List (Entry κ ν) := l.map fun o => if o.node = e.node then e else o

def splice (l : List (Entry κ ν)) (e : Entry κ ν) : List (Entry κ ν) := e :: unlink l e.node

section
variable [DecidableEq κ] (layout : Layout κ Nat)

def get (c : Cache κ ν) (key : κ) (promote : Bool) : Option (Cache κ ν × Option ν) :=
  match c.map.find key with
  | none => some ({ c with missCount := c.missCount + 1 }, none)
  | some it => (deref c.lruList it).map fun e =>
    ({ c with
      hitCount := c.hitCount + 1
      lruList := if promote then splice c.lruList e else c.lruList }, some e.value)

/-- One turn of the loop of `evict`; `none` ends it. -/
def evictTurn (c : Cache κ ν) : Option (Cache κ ν) :=
  if c.maxBytes < c.currentBytes then
    c.lruList.getLast?.map fun back => { c with
      currentBytes := c.currentBytes - back.size
      map := c.map.erase layout back.key
      lruList := c.lruList.dropLast }
  else none

def evictLoop : Nat → Cache κ ν → Cache κ ν
  | 0, c => c
  | turns + 1, c =>
    match evictTurn layout c with
    | none => c
    | some c => evictLoop turns c

def evict (c : Cache κ ν) : Cache κ ν := evictLoop layout c.lruList.length c

/-- `put` up to its call of `evict`. -/
def place (c : Cache κ ν) (key : κ) (value : ν) (size : BitVec 64) (hot : Bool) : Option (Cache κ ν) :=
  match c.map.find key with
  | some it => (deref c.lruList it).map fun e =>
    let e' := { e with value := value, size := size }
    { c with
      currentBytes := c.currentBytes - e.size + size
      lruList := if hot then splice (assign c.lruList e') e' else assign c.lruList e' }
  | none =>
    let e := ⟨c.nodes, key, value, size⟩
    some { c with
      lruList := if hot then e :: c.lruList else c.lruList ++ [e]
      map := c.map.insert layout key c.nodes
      nodes := c.nodes + 1
      currentBytes := c.currentBytes + size }

def put (c : Cache κ ν) (key : κ) (value : ν) (size : BitVec 64) (hot : Bool) : Option (Cache κ ν) :=
  (place layout c key value size hot).map (evict layout)

def erase (c : Cache κ ν) (key : κ) : Option (Cache κ ν) :=
  match c.map.find key with
  | none => some c
  | some it => (deref c.lruList it).map fun e => { c with
    currentBytes := c.currentBytes - e.size
    lruList := unlink c.lruList it
    map := c.map.erase layout key }

def setMaxBytes (c : Cache κ ν) (maxBytes : BitVec 64) : Cache κ ν := evict layout { c with maxBytes := maxBytes }

end

def clear (c : Cache κ ν) : Cache κ ν := { c with map := DenseMap.empty, lruList := [], currentBytes := 0 }

/-! ## Bytes -/

def listed (l : List (Entry κ ν)) : Nat := (l.map fun e => e.size.toNat).sum

@[simp] theorem listedCons (e : Entry κ ν) (l : List (Entry κ ν)) : listed (e :: l) = e.size.toNat + listed l := rfl

theorem listedAppend (front back : List (Entry κ ν)) : listed (front ++ back) = listed front + listed back := by
  simp [listed]

theorem listedPerm {l l' : List (Entry κ ν)} (same : l.Perm l') : listed l = listed l' := (same.map _).sum_eq

def Accounted (counter : BitVec 64) (l : List (Entry κ ν)) : Prop := counter = BitVec.ofNat 64 (listed l)

theorem accountedPerm {counter : BitVec 64} {l l' : List (Entry κ ν)} (same : l.Perm l') (right : Accounted counter l) :
    Accounted counter l' := by
  rw [Accounted, ← listedPerm same]
  exact right

theorem accountedCons {counter : BitVec 64} (e : Entry κ ν) {l : List (Entry κ ν)} :
    Accounted (counter + e.size) (e :: l) ↔ Accounted counter l := by
  have whole : BitVec.ofNat 64 (listed (e :: l)) = BitVec.ofNat 64 (listed l) + e.size := by
    rw [listedCons, Nat.add_comm, BitVec.ofNat_add, BitVec.ofNat_toNat, BitVec.setWidth_eq]
  rw [Accounted, whole, BitVec.add_left_inj]
  rfl

theorem accountedTail {counter : BitVec 64} {e : Entry κ ν} {l : List (Entry κ ν)} (right : Accounted counter (e :: l)) :
    Accounted (counter - e.size) l := by
  rw [← accountedCons e, BitVec.sub_add_cancel]
  exact right

theorem accountedNat {counter : BitVec 64} {l : List (Entry κ ν)} (right : Accounted counter l) :
    counter.toNat = listed l % 2 ^ 64 := by
  rw [right, BitVec.toNat_ofNat]

/-- The counter of these entries, as it is kept, is within the limit. -/
def Fits (maxBytes : BitVec 64) (l : List (Entry κ ν)) : Prop := listed l % 2 ^ 64 ≤ maxBytes.toNat

/-! ## Nodes and keys -/

/-- The map and the list are in bijection: the map's entries are the keys of the nodes, each with its own node. -/
structure Linked (l : List (Entry κ ν)) (map : DenseMap κ Nat) (nodes : Nat) : Prop where
  distinct : (l.map Entry.node).Nodup
  bijection : map.entries.Perm (l.map fun e => (e.key, e.node))
  fresh : ∀ e ∈ l, e.node < nodes

section
variable {l l' rest : List (Entry κ ν)} {map : DenseMap κ Nat} {nodes : Nat} {e e' : Entry κ ν}

theorem linkedPerm (same : l.Perm l') (linked : Linked l map nodes) : Linked l' map nodes where
  distinct := (same.map _).nodup_iff.mp linked.distinct
  bijection := linked.bijection.trans (same.map _)
  fresh e mem := linked.fresh e (same.mem_iff.mpr mem)

theorem linkedKeys (linked : Linked l map nodes) : (l.map Entry.key).Nodup := by
  have keys := (linked.bijection.map Prod.fst).nodup_iff.mp map.distinct
  rwa [List.map_map] at keys

theorem linkedHead (linked : Linked (e :: rest) map nodes) (key : e'.key = e.key) (node : e'.node = e.node) :
    Linked (e' :: rest) map nodes where
  distinct := by
    rw [List.map_cons, node]
    exact linked.distinct
  bijection := by
    rw [List.map_cons, key, node]
    exact linked.bijection
  fresh o mem := by
    rcases List.mem_cons.mp mem with rfl | later
    · exact node ▸ linked.fresh e List.mem_cons_self
    · exact linked.fresh o (List.mem_cons_of_mem _ later)

/-! ## One node of the list -/

theorem derefMem (distinct : (l.map Entry.node).Nodup) (mem : e ∈ l) : deref l e.node = some e := by
  induction l with
  | nil => cases mem
  | cons o rest ih =>
    obtain ⟨apart, distinct⟩ := List.nodup_cons.mp distinct
    rw [deref, List.find?_cons]
    by_cases same : o.node = e.node
    · rcases List.mem_cons.mp mem with rfl | later
      · simp
      · exact absurd (same ▸ List.mem_map_of_mem later) apart
    · rw [decide_eq_false same]
      rcases List.mem_cons.mp mem with rfl | later
      · exact absurd rfl same
      · exact ih distinct later

theorem unlinkAway (away : e.node ∉ l.map Entry.node) : unlink l e.node = l :=
  List.filter_eq_self.mpr fun _ mem => decide_eq_true fun same => away (List.mem_map.mpr ⟨_, mem, same⟩)

theorem assignAway (away : e.node ∉ l.map Entry.node) : assign l e = l := by
  rw [assign, List.map_congr_left (g := id), List.map_id]
  exact fun _ mem => if_neg fun same => away (List.mem_map.mpr ⟨_, mem, same⟩)

theorem assignPerm (distinct : (l.map Entry.node).Nodup) (mem : e ∈ l) (node : e'.node = e.node) :
    (assign l e').Perm (e' :: unlink l e.node) := by
  induction l with
  | nil => cases mem
  | cons o rest ih =>
    obtain ⟨apart, distinct⟩ := List.nodup_cons.mp distinct
    by_cases same : o.node = e.node
    · have away : e'.node ∉ rest.map Entry.node := by rwa [node, ← same]
      have kept : assign (o :: rest) e' = e' :: rest := by
        rw [assign, List.map_cons, if_pos (same.trans node.symm)]
        exact congrArg _ (assignAway away)
      have left : unlink (o :: rest) e.node = rest := by
        rw [unlink, List.filter_cons_of_neg (by simpa using same)]
        exact unlinkAway (same ▸ apart)
      rw [kept, left]
    · have later := (List.mem_cons.mp mem).resolve_left fun here => same (here ▸ rfl)
      have kept : assign (o :: rest) e' = o :: assign rest e' := by
        rw [assign, List.map_cons, if_neg fun here => same (here.trans node)]
        rfl
      have left : unlink (o :: rest) e.node = o :: unlink rest e.node := by
        rw [unlink, List.filter_cons_of_pos (by simpa using same)]
        rfl
      rw [kept, left]
      exact ((ih distinct later).cons o).trans (List.Perm.swap ..)

theorem assignSelf (e : Entry κ ν) (distinct : (l.map Entry.node).Nodup) (mem : e ∈ l) : assign l e = l := by
  rw [assign, List.map_congr_left (g := id), List.map_id]
  intro o there
  by_cases same : o.node = e.node
  · rw [if_pos same, List.inj_on_of_nodup_map distinct there mem same]
    rfl
  · exact if_neg same

theorem unlinkPerm (distinct : (l.map Entry.node).Nodup) (mem : e ∈ l) : l.Perm (e :: unlink l e.node) := by
  have same := assignPerm distinct mem rfl
  rwa [assignSelf e distinct mem] at same

end

theorem splicePerm {l : List (Entry κ ν)} {e : Entry κ ν} (distinct : (l.map Entry.node).Nodup) (mem : e ∈ l) :
    (splice l e).Perm l := (unlinkPerm distinct mem).symm

/-! ## What each call leaves -/

def Holds (l : List (Entry κ ν)) (key : κ) (value : ν) : Prop := ∃ e ∈ l, e.key = key ∧ e.value = value

theorem holdsPerm {l l' : List (Entry κ ν)} (same : l.Perm l') (key : κ) (value : ν) :
    Holds l key value ↔ Holds l' key value := by
  simp only [Holds, same.mem_iff]

structure Kept (c : Cache κ ν) : Prop where
  linked : Linked c.lruList c.map c.nodes
  accounted : Accounted c.currentBytes c.lruList

theorem keptNew (maxBytes : BitVec 64) : Kept (new maxBytes : Cache κ ν) where
  linked := ⟨List.nodup_nil, List.Perm.refl _, nofun⟩
  accounted := rfl

theorem keptClear (c : Cache κ ν) : Kept (clear c) where
  linked := ⟨List.nodup_nil, List.Perm.refl _, nofun⟩
  accounted := rfl

theorem fitsCounter {c : Cache κ ν} (kept : Kept c) : Fits c.maxBytes c.lruList ↔ ¬c.maxBytes < c.currentBytes := by
  rw [Fits, ← accountedNat kept.accounted, BitVec.lt_def, Nat.not_lt]

variable [DecidableEq κ] (layout : Layout κ Nat)

/-- The entries of the other keys. -/
def others (l : List (Entry κ ν)) (key : κ) : List (Entry κ ν) := l.filter fun e => e.key ≠ key

section
variable {l rest : List (Entry κ ν)} {map : DenseMap κ Nat} {nodes : Nat} {e : Entry κ ν}

theorem linkedFind (linked : Linked l map nodes) {key : κ} {it : Nat} :
    map.find key = some it ↔ ∃ e ∈ l, e.key = key ∧ e.node = it := by
  rw [DenseMap.findMem, linked.bijection.mem_iff, List.mem_map]
  simp only [Prod.mk.injEq]

theorem linkedAbsent (linked : Linked l map nodes) {key : κ} (absent : map.find key = none) : ∀ e ∈ l, e.key ≠ key := by
  intro e mem same
  have found := linked |> linkedFind |>.mpr ⟨e, mem, same, rfl⟩
  rw [absent] at found
  cases found

theorem linkedTail (linked : Linked (e :: rest) map nodes) : Linked rest (map.erase layout e.key) nodes where
  distinct := (List.nodup_cons.mp linked.distinct).2
  bijection := by
    have others : ∀ o ∈ rest, o.key ≠ e.key := fun o mem same =>
      (List.nodup_cons.mp (linkedKeys linked)).1 (same ▸ List.mem_map_of_mem mem)
    refine (layout.erasePerm map.entries e.key map.distinct).trans ((linked.bijection.filter _).trans ?_)
    rw [List.map_cons, List.filter_cons_of_neg (by simp), List.filter_eq_self.mpr]
    intro pair mem
    obtain ⟨o, there, rfl⟩ := List.mem_map.mp mem
    exact decide_eq_true (others o there)
  fresh o mem := linked.fresh o (List.mem_cons_of_mem _ mem)

theorem linkedNew (linked : Linked l map nodes) {key : κ} (absent : map.find key = none) (value : ν) (size : BitVec 64) :
    Linked (⟨nodes, key, value, size⟩ :: l) (map.insert layout key nodes) (nodes + 1) where
  distinct := by
    refine List.nodup_cons.mpr ⟨fun mem => ?_, linked.distinct⟩
    obtain ⟨o, there, same⟩ := List.mem_map.mp mem
    exact absurd (linked.fresh o there) (by rw [same]; exact Nat.lt_irrefl _)
  bijection := by
    simp only [DenseMap.insert, DenseMap.emplace, absent, dite_true]
    exact (layout.emplacePerm _ _ _).trans (linked.bijection.cons _)
  fresh o mem := by
    rcases List.mem_cons.mp mem with rfl | later
    · exact Nat.lt_succ_self _
    · exact Nat.lt_succ_of_lt (linked.fresh o later)

end

section
variable {c : Cache κ ν} {key : κ}

theorem derefFound (kept : Kept c) {it : Nat} (found : c.map.find key = some it) :
    ∃ e ∈ c.lruList, e.key = key ∧ e.node = it ∧ deref c.lruList it = some e := by
  obtain ⟨e, mem, same, rfl⟩ := (linkedFind kept.linked).mp found
  exact ⟨e, mem, same, rfl, derefMem kept.linked.distinct mem⟩

theorem unlinkOthers (kept : Kept c) {e : Entry κ ν} (mem : e ∈ c.lruList) :
    unlink c.lruList e.node = others c.lruList e.key := by
  refine List.filter_congr fun o there => decide_eq_decide.mpr (not_congr ⟨fun same => ?_, fun same => ?_⟩)
  · rw [List.inj_on_of_nodup_map kept.linked.distinct there mem same]
  · rw [List.inj_on_of_nodup_map (linkedKeys kept.linked) there mem same]

theorem othersAbsent (kept : Kept c) (absent : c.map.find key = none) : others c.lruList key = c.lruList :=
  List.filter_eq_self.mpr fun e mem => decide_eq_true (linkedAbsent kept.linked absent e mem)

theorem getKept (kept : Kept c) (promote : Bool) : ∃ c' r, get c key promote = some (c', r) ∧ Kept c' ∧
    c'.maxBytes = c.maxBytes ∧ c'.currentBytes = c.currentBytes ∧ c'.lruList.Perm c.lruList ∧
    ∀ value, r = some value ↔ Holds c.lruList key value := by
  unfold get
  cases found : c.map.find key with
  | none =>
    refine ⟨_, _, rfl, ⟨kept.linked, kept.accounted⟩, rfl, rfl, .refl _, fun value => ⟨(fun none_ => nomatch none_), ?_⟩⟩
    rintro ⟨e, mem, same, _⟩
    exact absurd same (linkedAbsent kept.linked found e mem)
  | some it =>
    obtain ⟨e, mem, same, node, here⟩ := derefFound kept found
    have moved : (if promote then splice c.lruList e else c.lruList).Perm c.lruList := by
      cases promote with
      | false => exact .refl _
      | true => exact splicePerm kept.linked.distinct mem
    dsimp only
    rw [here]
    refine ⟨_, _, rfl, ⟨linkedPerm moved.symm kept.linked, ?_⟩, rfl, rfl, moved, fun value => ?_⟩
    · exact accountedPerm moved.symm kept.accounted
    · rw [Option.some.injEq]
      constructor
      · exact fun value => ⟨e, mem, same, value⟩
      · rintro ⟨o, there, key, rfl⟩
        rw [List.inj_on_of_nodup_map (linkedKeys kept.linked) there mem (key.trans same.symm)]

theorem placeKept (kept : Kept c) (value : ν) (size : BitVec 64) (hot : Bool) :
    ∃ c' e, place layout c key value size hot = some c' ∧ Kept c' ∧ c'.maxBytes = c.maxBytes ∧
      c'.lruList.Perm (e :: others c.lruList key) ∧ e.key = key ∧ e.value = value ∧ e.size = size := by
  unfold place
  cases found : c.map.find key with
  | none =>
    have moved : (if hot then ⟨c.nodes, key, value, size⟩ :: c.lruList
        else c.lruList ++ [(⟨c.nodes, key, value, size⟩ : Entry κ ν)]).Perm (⟨c.nodes, key, value, size⟩ :: c.lruList) := by
      cases hot with
      | false => exact List.perm_append_singleton ..
      | true => exact .refl _
    refine ⟨_, ⟨c.nodes, key, value, size⟩, rfl, ⟨?_, ?_⟩, rfl, ?_, rfl, rfl, rfl⟩
    · exact linkedPerm moved.symm (linkedNew layout kept.linked found value size)
    · exact accountedPerm moved.symm ((accountedCons ⟨c.nodes, key, value, size⟩).mpr kept.accounted)
    · rw [othersAbsent kept found]
      exact moved
  | some it =>
    obtain ⟨e, mem, same, node, here⟩ := derefFound kept found
    let e' : Entry κ ν := { e with value := value, size := size }
    have stored : (assign c.lruList e').Perm (e' :: unlink c.lruList e.node) :=
      assignPerm kept.linked.distinct mem rfl
    have before := unlinkPerm kept.linked.distinct mem
    have linked : Linked (e' :: unlink c.lruList e.node) c.map c.nodes :=
      linkedHead (linkedPerm before kept.linked) rfl rfl
    have distinct := (linkedPerm stored.symm linked).distinct
    have moved : (if hot then splice (assign c.lruList e') e' else assign c.lruList e').Perm
        (e' :: unlink c.lruList e.node) := by
      cases hot with
      | false => exact stored
      | true => exact (splicePerm distinct (stored.mem_iff.mpr List.mem_cons_self)).trans stored
    dsimp only
    rw [here]
    refine ⟨_, e', rfl, ⟨linkedPerm moved.symm linked, ?_⟩, rfl, ?_, same, rfl, rfl⟩
    · refine accountedPerm moved.symm ((accountedCons e').mpr ?_)
      exact accountedTail (accountedPerm before kept.accounted)
    · rw [← same, ← unlinkOthers kept mem]
      exact moved

theorem eraseKept (kept : Kept c) : ∃ c', erase layout c key = some c' ∧ Kept c' ∧ c'.maxBytes = c.maxBytes ∧
    c'.lruList = others c.lruList key := by
  unfold erase
  cases found : c.map.find key with
  | none => exact ⟨c, rfl, kept, rfl, (othersAbsent kept found).symm⟩
  | some it =>
    obtain ⟨e, mem, rfl, rfl, here⟩ := derefFound kept found
    have before := unlinkPerm kept.linked.distinct mem
    dsimp only
    rw [here]
    refine ⟨_, rfl, ⟨?_, ?_⟩, rfl, unlinkOthers kept mem⟩
    · exact linkedTail layout (linkedPerm before kept.linked)
    · exact accountedTail (accountedPerm before kept.accounted)

end

/-! ## Eviction -/

theorem turnKept {c c' : Cache κ ν} (kept : Kept c) (turn : evictTurn layout c = some c') :
    ∃ back, c.lruList = c'.lruList ++ [back] ∧ Kept c' ∧ c'.maxBytes = c.maxBytes ∧ ¬Fits c.maxBytes c.lruList := by
  unfold evictTurn at turn
  by_cases crowded : c.maxBytes < c.currentBytes
  · rw [if_pos crowded] at turn
    obtain ⟨back, last, rfl⟩ := Option.map_eq_some_iff.mp turn
    have split := (List.dropLast_append_getLast? back last).symm
    have before : c.lruList.Perm (back :: c.lruList.dropLast) := by
      conv_lhs => rw [split]
      exact List.perm_append_singleton ..
    refine ⟨back, split, ⟨?_, ?_⟩, rfl, fun fit => (fitsCounter kept).mp fit crowded⟩
    · exact linkedTail layout (linkedPerm before kept.linked)
    · exact accountedTail (accountedPerm before kept.accounted)
  · rw [if_neg crowded] at turn
    cases turn

theorem turnEnds {c : Cache κ ν} (kept : Kept c) (ended : evictTurn layout c = none) : Fits c.maxBytes c.lruList := by
  unfold evictTurn at ended
  by_cases crowded : c.maxBytes < c.currentBytes
  · rw [if_pos crowded, Option.map_eq_none_iff, List.getLast?_eq_none_iff] at ended
    rw [ended]
    exact Nat.zero_le _
  · exact (fitsCounter kept).mpr crowded

theorem evictLoopKept (turns : Nat) {c : Cache κ ν} (kept : Kept c) (enough : c.lruList.length ≤ turns) :
    Kept (evictLoop layout turns c) ∧ (evictLoop layout turns c).maxBytes = c.maxBytes ∧
      Shortest (Fits c.maxBytes) c.lruList (evictLoop layout turns c).lruList := by
  induction turns generalizing c with
  | zero =>
    have empty := List.length_eq_zero_iff.mp (Nat.le_zero.mp enough)
    refine ⟨kept, rfl, shortestStay ?_⟩
    rw [empty]
    exact Nat.zero_le _
  | succ turns ih =>
    rw [evictLoop]
    cases turn : evictTurn layout c with
    | none => exact ⟨kept, rfl, shortestStay (turnEnds layout kept turn)⟩
    | some c' =>
      obtain ⟨back, split, kept', limit, crowded⟩ := turnKept layout kept turn
      rw [split, List.length_append, List.length_singleton] at enough
      obtain ⟨final, limit', short⟩ := ih kept' (Nat.le_of_succ_le_succ enough)
      rw [limit] at limit' short
      exact ⟨final, limit', split ▸ shortestPop (split ▸ crowded) short⟩

theorem evictKept {c : Cache κ ν} (kept : Kept c) : Kept (evict layout c) ∧ (evict layout c).maxBytes = c.maxBytes ∧
    Shortest (Fits c.maxBytes) c.lruList (evict layout c).lruList :=
  evictLoopKept layout _ kept (Nat.le_refl _)

end Dewfall.LruCache
