import Mathlib.Data.List.Nodup
import Mathlib.Data.List.Infix
import Mathlib.Data.List.Pairwise
import Mathlib.Algebra.Order.BigOperators.Group.List
import Mathlib.Algebra.Order.Ring.Nat

/-! Breadth-first descent of a tree under a running total. A node is opened or it is a stop, whose weight
then counts; whether it is opened may depend on the total so far and on its depth. A spot is a node with
the labels that lead to it; its depth is their number. -/
namespace General.Descent

variable {N : Type*}

structure Walk (N : Type*) where
  branches : Nat → N → List (Nat × N)
  opens : Nat → Nat → N → Bool
  weight : Nat → N → Nat

abbrev Spot (N : Type*) := List Nat × N

def Walk.weigh (w : Walk N) (x : Spot N) : Nat := w.weight x.1.length x.2
def Walk.sum (w : Walk N) (spots : List (Spot N)) : Nat := (spots.map w.weigh).sum
def Walk.extend (w : Walk N) (x : Spot N) : List (Spot N) :=
  (w.branches x.1.length x.2).map fun c => (x.1 ++ [c.1], c.2)

structure Trail (N : Type*) where
  stops : List (Spot N)
  opened : List (Spot N)

def sweep (w : Walk N) (total : Nat) : List (Spot N) → Trail N
  | [] => ⟨[], []⟩
  | x :: rest =>
    if w.opens total x.1.length x.2 then
      let later := sweep w total rest
      ⟨later.stops, x :: later.opened⟩
    else
      let later := sweep w (total + w.weigh x) rest
      ⟨x :: later.stops, later.opened⟩

def descend (w : Walk N) : Nat → Nat → List (Spot N) → Trail N
  | 0, _, _ => ⟨[], []⟩
  | levels + 1, total, current =>
    let here := sweep w total current
    let below := descend w levels (total + w.sum here.stops) (here.opened.flatMap w.extend)
    ⟨here.stops ++ below.stops, here.opened ++ below.opened⟩

-- The node that the labels lead to from a node at a depth.
inductive Below (w : Walk N) : Nat → N → List Nat → N → Prop where
  | self (depth n) : Below w depth n [] n
  | down {depth n i c path m} (branch : (i, c) ∈ w.branches depth n) (rest : Below w (depth + 1) c path m) :
      Below w depth n (i :: path) m

variable {w : Walk N} {total levels limit depth : Nat} {current : List (Spot N)} {x y : Spot N}

theorem sumAppend (first second : List (Spot N)) : w.sum (first ++ second) = w.sum first + w.sum second := by
  simp [Walk.sum]

theorem sumCons (x : Spot N) (rest : List (Spot N)) : w.sum (x :: rest) = w.weigh x + w.sum rest := by
  simp [Walk.sum]

theorem extendMem : y ∈ w.extend x ↔ ∃ i c, (i, c) ∈ w.branches x.1.length x.2 ∧ y = (x.1 ++ [i], c) := by
  simp only [Walk.extend, List.mem_map, Prod.exists]
  constructor
  · rintro ⟨i, c, branch, rfl⟩
    exact ⟨i, c, branch, rfl⟩
  · rintro ⟨i, c, branch, rfl⟩
    exact ⟨i, c, branch, rfl⟩

theorem belowSnoc {n m c : N} {path : List Nat} {i : Nat} (leads : Below w depth n path m)
    (branch : (i, c) ∈ w.branches (depth + path.length) m) : Below w depth n (path ++ [i]) c := by
  induction leads with
  | self depth n => exact .down branch (.self _ _)
  | @down depth n j d path m first rest ih =>
    refine .down first (ih ?_)
    rw [List.length_cons] at branch
    rwa [Nat.add_right_comm, Nat.add_assoc]

/-! ## One level -/

theorem sweepStop (mem : x ∈ (sweep w total current).stops) : x ∈ current := by
  induction current generalizing total with
  | nil => cases mem
  | cons c rest ih =>
    rw [sweep] at mem
    split at mem
    · exact List.mem_cons_of_mem _ (ih mem)
    · rcases List.mem_cons.mp mem with rfl | later
      · exact List.mem_cons_self
      · exact List.mem_cons_of_mem _ (ih later)

theorem sweepOpened (mem : x ∈ (sweep w total current).opened) :
    x ∈ current ∧ ∃ sofar, w.opens sofar x.1.length x.2 = true := by
  induction current generalizing total with
  | nil => cases mem
  | cons c rest ih =>
    rw [sweep] at mem
    split at mem
    · rename_i opens
      rcases List.mem_cons.mp mem with rfl | later
      · exact ⟨List.mem_cons_self, total, opens⟩
      · exact ⟨List.mem_cons_of_mem _ (ih later).1, (ih later).2⟩
    · exact ⟨List.mem_cons_of_mem _ (ih mem).1, (ih mem).2⟩

theorem sweepEach (total : Nat) (mem : x ∈ current) : x ∈ (sweep w total current).stops ∨ x ∈ (sweep w total current).opened := by
  induction current generalizing total with
  | nil => cases mem
  | cons c rest ih =>
    rw [sweep]
    split
    · rcases List.mem_cons.mp mem with rfl | later
      · exact .inr List.mem_cons_self
      · exact (ih _ later).imp_right (List.mem_cons_of_mem _)
    · rcases List.mem_cons.mp mem with rfl | later
      · exact .inl List.mem_cons_self
      · exact (ih _ later).imp_left (List.mem_cons_of_mem _)

theorem sweepStops : (sweep w total current).stops.Sublist current := by
  induction current generalizing total with
  | nil => exact List.Sublist.refl _
  | cons c rest ih =>
    rw [sweep]
    split
    · exact ih.cons c
    · exact ih.cons_cons c

theorem sweepKept : (sweep w total current).opened.Sublist current := by
  induction current generalizing total with
  | nil => exact List.Sublist.refl _
  | cons c rest ih =>
    rw [sweep]
    split
    · exact ih.cons_cons c
    · exact ih.cons c

-- A spot of the level is not both.
theorem sweepApart (distinct : (current.map Prod.fst).Nodup) {x y : Spot N}
    (stop : x ∈ (sweep w total current).stops) (opened : y ∈ (sweep w total current).opened) : x.1 ≠ y.1 := by
  induction current generalizing total with
  | nil => cases stop
  | cons c rest ih =>
    rw [List.map_cons, List.nodup_cons] at distinct
    obtain ⟨new, distinct⟩ := distinct
    rw [sweep] at stop opened
    split at stop
    · rename_i opens
      rw [if_pos opens] at opened
      rcases List.mem_cons.mp opened with rfl | later
      · exact fun same => new (same ▸ List.mem_map_of_mem (sweepStop stop))
      · exact ih distinct stop later
    · rename_i opens
      rw [if_neg opens] at opened
      rcases List.mem_cons.mp stop with rfl | later
      · exact fun same => new (same ▸ List.mem_map_of_mem (sweepOpened opened).1)
      · exact ih distinct later opened

/-! ## Every level -/

def Labelled (w : Walk N) : Prop := ∀ depth n, ((w.branches depth n).map Prod.fst).Nodup

structure Level (current : List (Spot N)) (depth : Nat) : Prop where
  lengths : ∀ x ∈ current, x.1.length = depth
  distinct : (current.map Prod.fst).Nodup

theorem extendLengths (lengths : ∀ x ∈ current, x.1.length = depth) :
    ∀ y ∈ current.flatMap w.extend, y.1.length = depth + 1 := by
  intro y mem
  obtain ⟨x, inside, extends_⟩ := List.mem_flatMap.mp mem
  obtain ⟨i, c, _, rfl⟩ := extendMem.mp extends_
  rw [List.length_append, lengths x inside]
  rfl

theorem extendLevel (labelled : Labelled w) (level : Level current depth) :
    Level (current.flatMap w.extend) (depth + 1) := by
  refine ⟨extendLengths level.lengths, ?_⟩
  · have distinct := level.distinct
    have lengths := level.lengths
    clear level
    induction current with
    | nil => exact List.nodup_nil
    | cons x rest ih =>
      rw [List.map_cons, List.nodup_cons] at distinct
      rw [List.flatMap_cons, List.map_append, List.nodup_append]
      refine ⟨?_, ih distinct.2 fun y mem => lengths y (List.mem_cons_of_mem _ mem), ?_⟩
      · have labels := labelled x.1.length x.2
        simp only [Walk.extend, List.map_map]
        rw [List.Nodup, List.pairwise_map] at labels ⊢
        exact labels.imp fun differ same => differ (by simpa using same)
      · intro p first q second same
        obtain ⟨y, extends_, rfl⟩ := List.mem_map.mp first
        obtain ⟨z, later, rfl⟩ := List.mem_map.mp second
        obtain ⟨x', inside, extends'⟩ := List.mem_flatMap.mp later
        obtain ⟨i, c, _, rfl⟩ := extendMem.mp extends_
        obtain ⟨j, d, _, rfl⟩ := extendMem.mp extends'
        have paths : x.1 = x'.1 := (List.append_inj' same rfl).1
        exact distinct.1 (paths ▸ List.mem_map_of_mem inside)

theorem sweepLevel (level : Level current depth) : Level (sweep w total current).opened depth :=
  ⟨fun x mem => level.lengths x (sweepOpened mem).1, level.distinct.sublist (sweepKept.map Prod.fst)⟩

-- A stop lies at or under a spot of the level the descent starts with.
theorem stopUnder (stop : y ∈ (descend w levels total current).stops) :
    ∃ x ∈ current, ∃ path, y.1 = x.1 ++ path ∧ Below w x.1.length x.2 path y.2 := by
  induction levels generalizing total current with
  | zero => cases stop
  | succ levels ih =>
    rcases List.mem_append.mp stop with here | below
    · exact ⟨y, sweepStop here, [], (List.append_nil _).symm, .self _ _⟩
    · obtain ⟨x', inside, path, reached, leads⟩ := ih below
      obtain ⟨x, opened, extends_⟩ := List.mem_flatMap.mp inside
      obtain ⟨i, c, branch, rfl⟩ := extendMem.mp extends_
      refine ⟨x, (sweepOpened opened).1, i :: path, ?_, .down branch ?_⟩
      · rw [reached, List.append_assoc]
        rfl
      · rw [List.length_append] at leads
        exact leads

-- An opened spot lies at or under a spot of the level the descent starts with.
theorem openedFrom (opened : y ∈ (descend w levels total current).opened) :
    ∃ x ∈ current, ∃ path, y.1 = x.1 ++ path := by
  induction levels generalizing total current with
  | zero => cases opened
  | succ levels ih =>
    rcases List.mem_append.mp opened with here | below
    · exact ⟨y, (sweepOpened here).1, [], (List.append_nil _).symm⟩
    · obtain ⟨x', inside, path, reached⟩ := ih below
      obtain ⟨x, opened, extends_⟩ := List.mem_flatMap.mp inside
      obtain ⟨i, c, _, rfl⟩ := extendMem.mp extends_
      exact ⟨x, (sweepOpened opened).1, i :: path, by rw [reached, List.append_assoc]; rfl⟩

theorem openedUnder (opened : y ∈ (descend w levels total current).opened) :
    ∃ sofar, w.opens sofar y.1.length y.2 = true := by
  induction levels generalizing total current with
  | zero => cases opened
  | succ levels ih =>
    rcases List.mem_append.mp opened with here | below
    · exact (sweepOpened here).2
    · exact ih below

theorem sameLengthPrefix {p q : List Nat} {more : List Nat} (lengths : p.length = q.length)
    (within : p <+: q ++ more) : p = q := by
  obtain ⟨rest, joined⟩ := within
  exact (List.append_inj joined lengths).1

-- No stop lies under another.
theorem stopsApart (labelled : Labelled w) (level : Level current depth) :
    (descend w levels total current).stops.Pairwise fun x y => ¬ x.1 <+: y.1 ∧ ¬ y.1 <+: x.1 := by
  induction levels generalizing total current depth with
  | zero => exact List.Pairwise.nil
  | succ levels ih =>
    refine List.pairwise_append.mpr ⟨?_, ih (extendLevel labelled (sweepLevel level)), ?_⟩
    · have distinct := (level.distinct.sublist (sweepStops.map Prod.fst) :
        ((sweep w total current).stops.map Prod.fst).Nodup)
      rw [List.Nodup, List.pairwise_map] at distinct
      refine distinct.imp_of_mem fun {x y} first second differ => ?_
      have lengths : x.1.length = y.1.length :=
        (level.lengths x (sweepStop first)).trans (level.lengths y (sweepStop second)).symm
      exact ⟨fun within => differ (within.eq_of_length lengths),
        fun within => differ (within.eq_of_length lengths.symm).symm⟩
    · intro x here y below
      obtain ⟨x', inside, path, reached, _⟩ := stopUnder below
      obtain ⟨z, opened, extends_⟩ := List.mem_flatMap.mp inside
      obtain ⟨i, c, _, rfl⟩ := extendMem.mp extends_
      have differ := sweepApart level.distinct here opened
      have lengths : x.1.length = z.1.length :=
        (level.lengths x (sweepStop here)).trans (level.lengths z (sweepOpened opened).1).symm
      rw [reached, List.append_assoc]
      refine ⟨fun within => differ (sameLengthPrefix lengths within), fun within => ?_⟩
      have shorter := within.length_le
      simp only [List.length_append, List.length_cons, List.length_nil] at shorter
      omega

-- A node within the levels is opened, or a stop is met on the way to it.
theorem metOrOpened (total : Nat) {x : Spot N} {path : List Nat} {m : N} (inside : x ∈ current)
    (leads : Below w x.1.length x.2 path m) (near : path.length < levels) :
    (∃ y ∈ (descend w levels total current).stops, y.1 <+: x.1 ++ path) ∨
      (x.1 ++ path, m) ∈ (descend w levels total current).opened := by
  induction levels generalizing total current x path with
  | zero => omega
  | succ levels ih =>
    rcases sweepEach (w := w) total inside with stop | opened
    · exact .inl ⟨x, List.mem_append_left _ stop, List.prefix_append _ _⟩
    · cases leads with
      | self =>
        rw [List.append_nil]
        exact .inr (List.mem_append_left _ opened)
      | @down _ _ i c path _ branch rest =>
        have next : (x.1 ++ [i], c) ∈ (sweep w total current).opened.flatMap w.extend :=
          List.mem_flatMap.mpr ⟨x, opened, extendMem.mpr ⟨i, c, branch, rfl⟩⟩
        have leads : Below w (x.1 ++ [i]).length c path m := by rwa [List.length_append]
        have found := ih (total + w.sum (sweep w total current).stops) next leads
          (Nat.lt_of_succ_lt_succ near)
        rw [List.append_assoc] at found
        rcases found with ⟨y, stop, within⟩ | opened
        · exact .inl ⟨y, List.mem_append_right _ stop, within⟩
        · exact .inr (List.mem_append_right _ opened)

-- A node that is never opened has one stop at or above it.
theorem oneStop (labelled : Labelled w) (level : Level current depth) {x : Spot N} {path : List Nat} {m : N}
    (inside : x ∈ current) (leads : Below w x.1.length x.2 path m) (near : path.length < levels)
    (shut : ∀ sofar, w.opens sofar (x.1 ++ path).length m = false) :
    ∃! y, y ∈ (descend w levels total current).stops ∧ y.1 <+: x.1 ++ path := by
  rcases metOrOpened total inside leads near with ⟨y, stop, within⟩ | opened
  · refine ⟨y, ⟨stop, within⟩, fun z ⟨stop', within'⟩ => ?_⟩
    by_contra differ
    have symmetric : Std.Symm fun x y : Spot N => ¬x.1 <+: y.1 ∧ ¬y.1 <+: x.1 := ⟨fun _ _ both => both.symm⟩
    have apart := (stopsApart (w := w) labelled level).forall stop' stop differ
    rcases List.prefix_or_prefix_of_prefix within' within with under | under
    · exact apart.1 under
    · exact apart.2 under
  · obtain ⟨sofar, opens⟩ := openedUnder opened
    rw [shut sofar] at opens
    cases opens

-- A spot that is opened lies within the levels.
theorem openedDepth (lengths : ∀ x ∈ current, x.1.length = depth) (opened : y ∈ (descend w levels total current).opened) :
    y.1.length < depth + levels := by
  induction levels generalizing total current depth with
  | zero => cases opened
  | succ levels ih =>
    rcases List.mem_append.mp opened with here | below
    · rw [lengths y (sweepOpened here).1]
      omega
    · have deeper := ih (extendLengths fun x mem => lengths x (sweepOpened mem).1) below
      omega

/-! ## Two walks that differ in their branches -/

structure Alike (w v : Walk N) : Prop where
  opens : w.opens = v.opens
  weight : w.weight = v.weight

theorem sweepAlike {v : Walk N} (alike : Alike w v) : sweep w total current = sweep v total current := by
  induction current generalizing total with
  | nil => rfl
  | cons x rest ih => simp only [sweep, Walk.weigh, alike.opens, alike.weight, ih]

theorem sumAlike {v : Walk N} (alike : Alike w v) (spots : List (Spot N)) : w.sum spots = v.sum spots := by
  have each : w.weigh = v.weigh := by
    funext x
    rw [Walk.weigh, Walk.weigh, alike.weight]
  rw [Walk.sum, Walk.sum, each]

theorem extendAlike {v : Walk N} {spots : List (Spot N)}
    (same : ∀ x ∈ spots, w.branches x.1.length x.2 = v.branches x.1.length x.2) :
    spots.flatMap w.extend = spots.flatMap v.extend := by
  refine List.flatMap_congr fun x mem => ?_
  rw [Walk.extend, Walk.extend, same x mem]

theorem descendAlike {v : Walk N} (alike : Alike w v)
    (same : ∀ x ∈ (descend w levels total current).opened, w.branches x.1.length x.2 = v.branches x.1.length x.2) :
    descend w levels total current = descend v levels total current := by
  induction levels generalizing total current with
  | zero => rfl
  | succ levels ih =>
    have next := extendAlike fun x mem => same x (List.mem_append_left _ mem)
    have below := ih fun x mem => same x (List.mem_append_right _ mem)
    rw [descend, descend, below, next, sweepAlike alike, sumAlike alike]

-- Walks that branch alike above a depth open the same spots down to it.
theorem openedAlike {v : Walk N} {near : Nat} (alike : Alike w v) (lengths : ∀ x ∈ current, x.1.length = depth)
    (same : ∀ x ∈ (descend v levels total current).opened, x.1.length < near →
      w.branches x.1.length x.2 = v.branches x.1.length x.2)
    (opened : y ∈ (descend v levels total current).opened) (within : y.1.length ≤ near) :
    y ∈ (descend w levels total current).opened := by
  induction levels generalizing total current depth with
  | zero => cases opened
  | succ levels ih =>
    rw [descend, sweepAlike alike, sumAlike alike]
    rcases List.mem_append.mp opened with here | below
    · exact List.mem_append_left _ here
    · have deeper : ∀ x ∈ (sweep v total current).opened.flatMap v.extend, x.1.length = depth + 1 :=
        extendLengths fun x mem => lengths x (sweepOpened mem).1
      have close : depth < near := by
        obtain ⟨x, inside, path, reached⟩ := openedFrom below
        have length := congrArg List.length reached
        rw [List.length_append, deeper x inside] at length
        omega
      have next : (sweep v total current).opened.flatMap w.extend = (sweep v total current).opened.flatMap v.extend :=
        extendAlike fun x mem => same x (List.mem_append_left _ mem) (by rw [lengths x (sweepOpened mem).1]; exact close)
      refine List.mem_append_right _ ?_
      rw [next]
      exact ih deeper (fun x mem => same x (List.mem_append_right _ mem)) below

/-! ## The running total -/

def Shuts (w : Walk N) (limit : Nat) : Prop := ∀ total depth n, limit ≤ total → w.opens total depth n = false
def Idle (w : Walk N) (limit : Nat) (x : Spot N) : Prop := ∃ sofar < limit, w.opens sofar x.1.length x.2 = false

-- The stops before the limit is reached are idle; the rest lie on the level of the one that reaches it
-- or on the next.
inductive Spent (w : Walk N) (limit total : Nat) : List (Spot N) → Prop where
  | under {stops} (idle : ∀ x ∈ stops, Idle w limit x) (below : total + w.sum stops < limit) :
      Spent w limit total stops
  | reached {before x after} (idle : ∀ y ∈ before ++ [x], Idle w limit y) (below : total + w.sum before < limit)
      (reaches : limit ≤ total + w.sum before + w.weigh x)
      (near : ∀ y ∈ after, y.1.length = x.1.length ∨ y.1.length = x.1.length + 1) :
      Spent w limit total (before ++ x :: after)

theorem sweepShut (shuts : Shuts w limit) (full : limit ≤ total) : sweep w total current = ⟨current, []⟩ := by
  induction current generalizing total with
  | nil => rfl
  | cons c rest ih =>
    have shut : ¬w.opens total c.1.length c.2 = true := Bool.eq_false_iff.mp (shuts _ _ _ full)
    rw [sweep, if_neg shut]
    dsimp only
    rw [ih (Nat.le_add_right_of_le full)]

theorem descendNil : descend w levels total [] = ⟨[], []⟩ := by
  induction levels generalizing total with
  | zero => rfl
  | succ levels ih => simp [descend, sweep, ih]

theorem descendShut (shuts : Shuts w limit) (full : limit ≤ total) :
    descend w (levels + 1) total current = ⟨current, []⟩ := by
  rw [descend, sweepShut shuts full]
  simp [descendNil]

theorem spentCons (idle : Idle w limit x) {rest : List (Spot N)} (rested : Spent w limit (total + w.weigh x) rest) :
    Spent w limit total (x :: rest) := by
  cases rested with
  | under rested below =>
    refine .under ?_ (by rw [sumCons]; omega)
    intro y mem
    rcases List.mem_cons.mp mem with rfl | later
    · exact idle
    · exact rested y later
  | @reached before z after rested below reaches near =>
    have joined : x :: (before ++ z :: after) = (x :: before) ++ z :: after := rfl
    rw [joined]
    refine .reached ?_ (by rw [sumCons]; omega) (by rw [sumCons]; omega) near
    intro y mem
    rcases List.mem_cons.mp mem with rfl | later
    · exact idle
    · exact rested y later

theorem spentAppend {first second : List (Spot N)} (idle : ∀ x ∈ first, Idle w limit x)
    (rested : Spent w limit (total + w.sum first) second) : Spent w limit total (first ++ second) := by
  induction first generalizing total with
  | nil => simpa [Walk.sum] using rested
  | cons x rest ih =>
    rw [sumCons, ← Nat.add_assoc] at rested
    exact spentCons (idle x List.mem_cons_self) (ih (fun y mem => idle y (List.mem_cons_of_mem _ mem)) rested)

theorem sweepSpent (shuts : Shuts w limit) (few : total < limit) (lengths : ∀ x ∈ current, x.1.length = depth) :
    Spent w limit total (sweep w total current).stops := by
  induction current generalizing total with
  | nil =>
    refine .under (fun _ mem => ?_) (by simpa [sweep, Walk.sum] using few)
    cases mem
  | cons c rest ih =>
    have later := fun x mem => lengths x (List.mem_cons_of_mem c mem)
    rw [sweep]
    split
    · exact ih few later
    · rename_i shut
      have idle : Idle w limit c := ⟨total, few, Bool.eq_false_iff.mpr shut⟩
      dsimp only
      by_cases full : limit ≤ total + w.weigh c
      · rw [sweepShut shuts full]
        rw [← List.nil_append (c :: rest)]
        refine .reached ?_ (by simpa [Walk.sum] using few) (by simpa [Walk.sum] using full) ?_
        · intro y mem
          rw [List.mem_singleton.mp mem]
          exact idle
        · intro y mem
          rw [later y mem, lengths c List.mem_cons_self]
          exact .inl rfl
      · exact spentCons idle (ih (by omega) later)

theorem descendSpent (shuts : Shuts w limit) (few : total < limit) (lengths : ∀ x ∈ current, x.1.length = depth) :
    Spent w limit total (descend w levels total current).stops := by
  induction levels generalizing total current depth with
  | zero =>
    refine .under (fun _ mem => ?_) (by simpa [descend, Walk.sum] using few)
    cases mem
  | succ levels ih =>
    have extended : ∀ y ∈ (sweep w total current).opened.flatMap w.extend, y.1.length = depth + 1 := by
      intro y mem
      obtain ⟨x, opened, extends_⟩ := List.mem_flatMap.mp mem
      obtain ⟨i, c, _, rfl⟩ := extendMem.mp extends_
      rw [List.length_append, lengths x (sweepOpened opened).1]
      rfl
    have here := sweepSpent shuts few lengths
    rw [descend]
    dsimp only
    generalize stopped : (sweep w total current).stops = stops at here ⊢
    cases here with
    | under idle below => exact spentAppend idle (ih below extended)
    | @reached before x after idle below reaches near =>
      have full : limit ≤ total + w.sum (before ++ x :: after) := by
        rw [sumAppend, sumCons]
        omega
      have inside : x ∈ (sweep w total current).stops := by
        rw [stopped]
        exact List.mem_append_right _ List.mem_cons_self
      rw [List.append_assoc, List.cons_append]
      refine .reached idle below reaches ?_
      intro y mem
      rcases List.mem_append.mp mem with same | next
      · exact near y same
      · refine .inr ?_
        rw [lengths x (sweepStop inside)]
        cases levels with
        | zero => cases next
        | succ levels =>
          rw [descendShut shuts full] at next
          exact extended y next

end General.Descent
