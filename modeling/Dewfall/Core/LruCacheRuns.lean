import Dewfall.Core.LruCache

/-! Runs of the cache: any calls in any order. The history of what was put, erased and evicted stands beside the
cache; the claims about bytes hold in exactly the runs whose listed sizes never add up to 2^64. -/
namespace Dewfall.LruCache
open General General.Eviction

/-! ## Calls and their history -/

inductive Call (κ ν : Type)
  | get (key : κ) (promote : Bool)
  | put (key : κ) (value : ν) (size : BitVec 64) (hot : Bool)
  | erase (key : κ)
  | clear
  | setMaxBytes (maxBytes : BitVec 64)

inductive Event (κ ν : Type)
  | put (key : κ) (value : ν)
  | erased (key : κ)
  | evicted (key : κ)
  | cleared

def Event.About {κ ν : Type} : Event κ ν → κ → Prop
  | .put key _, k | .erased key, k | .evicted key, k => key = k
  | .cleared, _ => True

-- The latest event stands first.
def LastPut {κ ν : Type} (history : List (Event κ ν)) (key : κ) (value : ν) : Prop :=
  ∃ newer older, history = newer ++ .put key value :: older ∧ ∀ event ∈ newer, ¬event.About key

structure Watched (κ ν : Type) where
  cache : Cache κ ν
  history : List (Event κ ν)

section
variable {κ ν : Type} [DecidableEq κ] (layout : Layout κ Nat)

def step (c : Cache κ ν) : Call κ ν → Option (Cache κ ν)
  | .get key promote => (get c key promote).map Prod.fst
  | .put key value size hot => put layout c key value size hot
  | .erase key => erase layout c key
  | .clear => some (clear c)
  | .setMaxBytes maxBytes => some (setMaxBytes layout c maxBytes)

/-- The cache that a call hands to `evict`. -/
def crowded (c : Cache κ ν) : Call κ ν → Option (Cache κ ν)
  | .put key value size hot => place layout c key value size hot
  | .setMaxBytes maxBytes => some { c with maxBytes := maxBytes }
  | _ => none

def evictions (c : Cache κ ν) (call : Call κ ν) : List (Event κ ν) :=
  match crowded layout c call with
  | none => []
  | some c => (c.lruList.drop (evict layout c).lruList.length).map fun e => .evicted e.key

def asked : Call κ ν → List (Event κ ν)
  | .put key value _ _ => [.put key value]
  | .erase key => [.erased key]
  | .clear => [.cleared]
  | .get _ _ | .setMaxBytes _ => []

def watch (w : Watched κ ν) (call : Call κ ν) : Option (Watched κ ν) :=
  (step layout w.cache call).map fun c => ⟨c, evictions layout w.cache call ++ (asked call ++ w.history)⟩

def run (maxBytes : BitVec 64) (calls : List (Call κ ν)) : Option (Watched κ ν) :=
  calls.foldlM (watch layout) ⟨new maxBytes, []⟩

end

/-! ## What the history says -/

section
variable {κ ν : Type}

theorem lastPutCons {event : Event κ ν} {older : List (Event κ ν)} {key : κ} {value : ν} :
    LastPut (event :: older) key value ↔ event = .put key value ∨ ¬event.About key ∧ LastPut older key value := by
  constructor
  · rintro ⟨newer, rest, split, away⟩
    cases newer with
    | nil =>
      cases split
      exact Or.inl rfl
    | cons first newer =>
      cases split
      exact Or.inr ⟨away _ List.mem_cons_self, newer, rest, rfl, fun event mem => away event (List.mem_cons_of_mem _ mem)⟩
  · rintro (rfl | ⟨first, newer, rest, rfl, away⟩)
    · exact ⟨[], older, rfl, nofun⟩
    · refine ⟨event :: newer, rest, rfl, fun other mem => ?_⟩
      rcases List.mem_cons.mp mem with rfl | later
      · exact first
      · exact away other later

theorem lastPutEvicted {gone : List (Entry κ ν)} {older : List (Event κ ν)} {key : κ} {value : ν} :
    LastPut (gone.map (fun e => .evicted e.key) ++ older) key value ↔
      (∀ e ∈ gone, e.key ≠ key) ∧ LastPut older key value := by
  induction gone with
  | nil => simp
  | cons e rest ih =>
    rw [List.map_cons, List.cons_append, lastPutCons, ih, List.forall_mem_cons, and_assoc]
    exact or_iff_right nofun

theorem holdsCons {e : Entry κ ν} {l : List (Entry κ ν)} {key : κ} {value : ν} :
    Holds (e :: l) key value ↔ (e.key = key ∧ e.value = value) ∨ Holds l key value := by
  simp [Holds]

theorem holdsKept {kept gone : List (Entry κ ν)} (keys : ((kept ++ gone).map Entry.key).Nodup) {key : κ} {value : ν} :
    Holds kept key value ↔ (∀ e ∈ gone, e.key ≠ key) ∧ Holds (kept ++ gone) key value := by
  rw [List.map_append] at keys
  constructor
  · rintro ⟨e, mem, rfl, rfl⟩
    refine ⟨fun o there same => ?_, e, List.mem_append_left _ mem, rfl, rfl⟩
    exact List.disjoint_of_nodup_append keys (List.mem_map_of_mem mem) (same ▸ List.mem_map_of_mem there)
  · rintro ⟨away, e, mem, rfl, rfl⟩
    exact ⟨e, (List.mem_append.mp mem).resolve_right fun there => away e there rfl, rfl, rfl⟩

end

section
variable {κ ν : Type} [DecidableEq κ] {layout : Layout κ Nat} {c : Cache κ ν}

theorem holdsOthers {l : List (Entry κ ν)} {key k : κ} {value : ν} :
    Holds (others l key) k value ↔ ¬key = k ∧ Holds l k value := by
  simp only [Holds, others, List.mem_filter, decide_eq_true_eq]
  constructor
  · rintro ⟨e, ⟨mem, other⟩, rfl, same⟩
    exact ⟨fun here => other here.symm, e, mem, rfl, same⟩
  · rintro ⟨other, e, mem, rfl, same⟩
    exact ⟨e, ⟨mem, fun here => other here.symm⟩, rfl, same⟩

def Recalled (l : List (Entry κ ν)) (history : List (Event κ ν)) : Prop :=
  ∀ key value, Holds l key value ↔ LastPut history key value

theorem evictRecalled (kept : Kept c) {history : List (Event κ ν)} (recalled : Recalled c.lruList history) :
    Recalled (evict layout c).lruList
      ((c.lruList.drop (evict layout c).lruList.length).map (fun e => .evicted e.key) ++ history) := by
  obtain ⟨gone, split⟩ := (evictKept layout kept).2.2.suffix
  have keys := linkedKeys kept.linked
  rw [split] at keys
  intro key value
  rw [split, List.drop_left, lastPutEvicted, holdsKept keys, ← split, recalled]

theorem watchKept {w : Watched κ ν} (kept : Kept w.cache) (recalled : Recalled w.cache.lruList w.history)
    (call : Call κ ν) : ∃ w', watch layout w call = some w' ∧ Kept w'.cache ∧ Recalled w'.cache.lruList w'.history := by
  obtain ⟨c, history⟩ := w
  cases call with
  | get key promote =>
    obtain ⟨c', r, ran, kept', _, _, moved, _⟩ := @getKept _ _ _ c key kept promote
    refine ⟨⟨c', history⟩, by simp [watch, step, ran, evictions, crowded, asked], kept', fun key value => ?_⟩
    rw [holdsPerm moved]
    exact recalled key value
  | put key value size hot =>
    obtain ⟨placed, e, ran, kept', _, moved, rfl, rfl, _⟩ := @placeKept _ _ _ layout c key kept value size hot
    refine ⟨⟨evict layout placed, _⟩, by rw [watch, step, put, ran]; rfl, (evictKept layout kept').1, ?_⟩
    rw [evictions, crowded, ran]
    refine evictRecalled kept' fun k v => ?_
    rw [holdsPerm moved, holdsCons, holdsOthers, recalled, asked, List.singleton_append, lastPutCons, Event.put.injEq]
    rfl
  | erase key =>
    obtain ⟨c', ran, kept', _, left⟩ := @eraseKept _ _ _ layout c key kept
    refine ⟨⟨c', _⟩, by rw [watch, step, ran]; rfl, kept', fun k v => ?_⟩
    change _ ↔ LastPut (.erased key :: history) k v
    rw [left, holdsOthers, recalled, lastPutCons]
    exact (or_iff_right nofun).symm
  | clear =>
    refine ⟨⟨clear c, _⟩, rfl, keptClear c, fun key value => iff_of_false (fun held => ?_) fun last => ?_⟩
    · obtain ⟨e, mem, _⟩ := held
      cases mem
    · rcases lastPutCons.mp last with same | ⟨away, _⟩
      · cases same
      · exact away trivial
  | setMaxBytes maxBytes =>
    have kept' : Kept { c with maxBytes := maxBytes } := ⟨kept.linked, kept.accounted⟩
    exact ⟨⟨setMaxBytes layout c maxBytes, _⟩, rfl, (evictKept layout kept').1, evictRecalled kept' recalled⟩

theorem runKept (calls : List (Call κ ν)) {w : Watched κ ν} (kept : Kept w.cache)
    (recalled : Recalled w.cache.lruList w.history) : ∃ w', calls.foldlM (watch layout) w = some w' ∧ Kept w'.cache ∧
      Recalled w'.cache.lruList w'.history := by
  induction calls generalizing w with
  | nil => exact ⟨w, rfl, kept, recalled⟩
  | cons call rest ih =>
    obtain ⟨w', ran, kept, recalled⟩ := watchKept kept recalled call
    obtain ⟨last, ranRest, final⟩ := ih kept recalled
    exact ⟨last, by rw [List.foldlM_cons, ran]; exact ranRest, final⟩

theorem reached (layout : Layout κ Nat) (maxBytes : BitVec 64) (calls : List (Call κ ν)) :
    ∃ w, run layout maxBytes calls = some w ∧ Kept w.cache ∧ Recalled w.cache.lruList w.history :=
  runKept calls (keptNew maxBytes) fun key value =>
    iff_of_false (fun held => nomatch held.choose_spec.1) fun last => by
      obtain ⟨newer, older, split, _⟩ := last
      cases newer <;> cases split

end

/-! ## Bytes within the limit -/

section
variable {κ ν : Type}

def Bounded (c : Cache κ ν) : Prop := c.currentBytes.toNat = listed c.lruList ∧ c.currentBytes ≤ c.maxBytes

theorem boundedIff {c : Cache κ ν} (kept : Kept c) : Bounded c ↔ listed c.lruList ≤ c.maxBytes.toNat := by
  have counter := accountedNat kept.accounted
  have limit := c.maxBytes.isLt
  rw [Bounded, BitVec.le_def, counter]
  constructor
  · rintro ⟨same, within⟩
    omega
  · intro within
    rw [Nat.mod_eq_of_lt (Nat.lt_of_le_of_lt within limit)]
    exact ⟨rfl, within⟩

theorem fitsBytes {maxBytes : BitVec 64} {l : List (Entry κ ν)} (small : listed l < 2 ^ 64) :
    ∀ front back, l = front ++ back → (Fits maxBytes front ↔ listed front ≤ maxBytes.toNat) := by
  rintro front back rfl
  rw [listedAppend] at small
  rw [Fits, Nat.mod_eq_of_lt (by omega)]

end

section
variable {κ ν : Type} [DecidableEq κ] {layout : Layout κ Nat} {c c' : Cache κ ν}

theorem listedOthers (l : List (Entry κ ν)) (key : κ) : listed (others l key) ≤ listed l :=
  (List.filter_sublist.map _).sum_le_sum fun _ _ => Nat.zero_le _

theorem evictBytes (kept : Kept c) (small : listed c.lruList < 2 ^ 64) :
    Shortest (fun l => listed l ≤ c.maxBytes.toNat) c.lruList (evict layout c).lruList :=
  shortestCongr (fitsBytes small) (evictKept layout kept).2.2

theorem evictBounded (kept : Kept c) (small : listed c.lruList < 2 ^ 64) : Bounded (evict layout c) := by
  obtain ⟨kept', limit, _⟩ := evictKept layout kept
  rw [boundedIff kept', limit]
  exact (evictBytes kept small).restored

/-- The bytes of the other entries and of the one put. -/
def demand (c : Cache κ ν) (key : κ) (size : BitVec 64) : Nat := listed (others c.lruList key) + size.toNat

theorem placeDemand {key : κ} {value : ν} {size : BitVec 64} {hot : Bool} (kept : Kept c)
    (ran : place layout c key value size hot = some c') :
    Kept c' ∧ c'.maxBytes = c.maxBytes ∧ listed c'.lruList = demand c key size := by
  obtain ⟨placed, e, ran', kept', limit, moved, _, _, rfl⟩ := @placeKept _ _ _ layout c key kept value size hot
  cases ran.symm.trans ran'
  rw [listedPerm moved, listedCons, Nat.add_comm]
  exact ⟨kept', limit, rfl⟩

theorem stepBounded (kept : Kept c) (bounded : Bounded c) {call : Call κ ν}
    (small : ∀ key value size hot, call = .put key value size hot → demand c key size < 2 ^ 64)
    (ran : step layout c call = some c') : Bounded c' := by
  have within := (boundedIff kept).mp bounded
  have limit := c.maxBytes.isLt
  cases call with
  | get key promote =>
    obtain ⟨there, r, ran', kept', limit, _, moved, _⟩ := @getKept _ _ _ c key kept promote
    rw [step, ran'] at ran
    cases ran
    rw [boundedIff kept', listedPerm moved, limit]
    exact within
  | put key value size hot =>
    obtain ⟨placed, ranPlace, rfl⟩ := Option.map_eq_some_iff.mp ran
    obtain ⟨kept', _, bytes⟩ := placeDemand kept ranPlace
    exact evictBounded kept' (bytes ▸ small key value size hot rfl)
  | erase key =>
    obtain ⟨there, ran', kept', limit, left⟩ := @eraseKept _ _ _ layout c key kept
    cases ran.symm.trans ran'
    rw [boundedIff kept', left, limit]
    exact (listedOthers _ _).trans within
  | clear =>
    cases ran
    exact (boundedIff (keptClear c)).mpr (Nat.zero_le _)
  | setMaxBytes maxBytes =>
    cases ran
    exact @evictBounded _ _ _ layout { c with maxBytes := maxBytes } ⟨kept.linked, kept.accounted⟩
      (Nat.lt_of_le_of_lt within limit)

-- A sum of 2^64 or more leaves less on the counter than the other entries have, so nothing is evicted.
theorem putUnbounded (kept : Kept c) (bounded : Bounded c) {key : κ} {value : ν} {size : BitVec 64} {hot : Bool}
    (ran : put layout c key value size hot = some c') (large : 2 ^ 64 ≤ demand c key size) : ¬Bounded c' := by
  obtain ⟨placed, ranPlace, rfl⟩ := Option.map_eq_some_iff.mp ran
  obtain ⟨kept', limit, bytes⟩ := placeDemand kept ranPlace
  have within := (listedOthers c.lruList key).trans ((boundedIff kept).mp bounded)
  have fit : Fits placed.maxBytes placed.lruList := by
    have small := c.maxBytes.isLt
    have put := size.isLt
    rw [Fits, limit, bytes]
    unfold demand at large ⊢
    omega
  obtain ⟨kept'', limit', short⟩ := evictKept layout kept'
  rw [boundedIff kept'', shortestWhole fit short, bytes, limit']
  exact Nat.not_le.mpr (Nat.lt_of_lt_of_le placed.maxBytes.isLt large)

theorem runSnoc (maxBytes : BitVec 64) (calls : List (Call κ ν)) (call : Call κ ν) :
    run layout maxBytes (calls ++ [call]) = (run layout maxBytes calls).bind fun w => watch layout w call := by
  simp [run, List.foldlM_append]

end

section
variable {κ ν : Type} [DecidableEq κ] (layout : Layout κ Nat)

/-- What holds in every state of every run. -/
structure Sound (w : Watched κ ν) : Prop where
  bijection : Linked w.cache.lruList w.cache.map w.cache.nodes
  counted : w.cache.currentBytes.toNat = listed w.cache.lruList % 2 ^ 64
  recalled : ∀ key promote, ∃ c r, get w.cache key promote = some (c, r) ∧
    ∀ value, r = some value ↔ LastPut w.history key value
  evicts : ∀ call c, crowded layout w.cache call = some c → ∃ c', step layout w.cache call = some c' ∧
    Shortest (Fits c.maxBytes) c.lruList c'.lruList ∧
    (listed c.lruList < 2 ^ 64 → Shortest (fun l => listed l ≤ c.maxBytes.toNat) c.lruList c'.lruList)

/-- No put of the run makes the listed sizes add up to 2^64. -/
def AddsUp (maxBytes : BitVec 64) (calls : List (Call κ ν)) : Prop :=
  ∀ done key value size hot rest, calls = done ++ .put key value size hot :: rest →
    ∀ w, run layout maxBytes done = some w → demand w.cache key size < 2 ^ 64

theorem keptSound {w : Watched κ ν} (kept : Kept w.cache) (recalled : Recalled w.cache.lruList w.history) :
    Sound layout w where
  bijection := kept.linked
  counted := accountedNat kept.accounted
  recalled key promote := by
    obtain ⟨c, r, ran, _, _, _, _, said⟩ := @getKept _ _ _ w.cache key kept promote
    exact ⟨c, r, ran, fun value => (said value).trans (recalled key value)⟩
  evicts call c before := by
    cases call with
    | put key value size hot =>
      obtain ⟨kept', _⟩ := placeDemand kept before
      exact ⟨evict layout c, congrArg (Option.map (evict layout)) before, (evictKept layout kept').2.2, evictBytes kept'⟩
    | setMaxBytes maxBytes =>
      cases before
      have kept' : Kept { w.cache with maxBytes := maxBytes } := ⟨kept.linked, kept.accounted⟩
      exact ⟨_, rfl, (evictKept layout kept').2.2, evictBytes kept'⟩
    | get | erase | clear => cases before

theorem runBounded {maxBytes : BitVec 64} {calls : List (Call κ ν)} (adds : AddsUp layout maxBytes calls)
    {done rest : List (Call κ ν)} (split : calls = done ++ rest) {w : Watched κ ν}
    (ran : run layout maxBytes done = some w) : Bounded w.cache := by
  induction done using List.reverseRecOn generalizing rest w with
  | nil =>
    cases ran
    exact (boundedIff (keptNew maxBytes)).mpr (Nat.zero_le _)
  | append_singleton done call ih =>
    rw [List.append_assoc] at split
    rw [runSnoc] at ran
    obtain ⟨before, ranBefore, ran⟩ := Option.bind_eq_some_iff.mp ran
    obtain ⟨c, ranStep, rfl⟩ := Option.map_eq_some_iff.mp ran
    obtain ⟨w, ran', kept, _⟩ := reached layout maxBytes done
    cases ranBefore.symm.trans ran'
    refine stepBounded kept (ih split ranBefore) (fun key value size hot same => ?_) ranStep
    exact adds done key value size hot rest (same ▸ split) before ranBefore

theorem boundedAddsUp {maxBytes : BitVec 64} {calls : List (Call κ ν)}
    (bounded : ∀ done rest, calls = done ++ rest → ∀ w, run layout maxBytes done = some w → Bounded w.cache) :
    AddsUp layout maxBytes calls := by
  intro done key value size hot rest split w ran
  by_contra large
  obtain ⟨w', ran', kept, recalled⟩ := reached layout maxBytes done
  cases ran.symm.trans ran'
  obtain ⟨next, ranNext, _⟩ := @watchKept _ _ _ layout _ kept recalled (.put key value size hot)
  have after := bounded (done ++ [.put key value size hot]) rest (by rw [split, List.append_assoc]; rfl) next
    (by rw [runSnoc, ran]; exact ranNext)
  obtain ⟨c, ranPut, rfl⟩ := Option.map_eq_some_iff.mp ranNext
  exact putUnbounded kept (bounded done _ split w ran) ranPut (Nat.le_of_not_lt large) after

theorem cacheRuns (maxBytes : BitVec 64) (calls : List (Call κ ν)) :
    (∃ w, run layout maxBytes calls = some w ∧ Sound layout w) ∧
      ((∀ done rest, calls = done ++ rest → ∀ w, run layout maxBytes done = some w → Bounded w.cache) ↔
        AddsUp layout maxBytes calls) := by
  refine ⟨?_, boundedAddsUp layout, fun adds done rest split w ran => runBounded layout adds split ran⟩
  obtain ⟨w, ran, kept, recalled⟩ := reached layout maxBytes calls
  exact ⟨w, ran, keptSound layout kept recalled⟩

end

-- Two values of 2^64 bytes together, at the largest limit.
def largePuts : List (Call Nat Unit) := [.put 0 () (2 ^ 64 - 1) true, .put 1 () 1 true]

theorem largePutsWrap : ¬∀ (maxBytes : BitVec 64) (calls : List (Call Nat Unit)) (w : Watched Nat Unit),
    run (appendLayout Nat Nat) maxBytes calls = some w → w.cache.currentBytes.toNat = listed w.cache.lruList := by
  intro all
  have wrapped : (run (appendLayout Nat Nat) (2 ^ 64 - 1) largePuts).map
      (fun w => (w.cache.currentBytes.toNat, listed w.cache.lruList)) = some (0, 2 ^ 64) := by decide +kernel
  obtain ⟨w, ran, bytes⟩ := Option.map_eq_some_iff.mp wrapped
  obtain ⟨counter, total⟩ := Prod.mk.inj bytes
  have same := all _ _ w ran
  rw [counter, total] at same
  exact absurd same (by decide)

end Dewfall.LruCache
