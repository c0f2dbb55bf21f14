import Dewfall.General.StableSort

/-! Elements with a key, arranged by key: those of one key stay in the order they had. Sorted runs are
merged by the least head, of equal heads by the first; a merged stream is joined with sorted targets, the
last element of a key taking effect. How a stream is read is not treated. -/
namespace General.KeyedStream
open StableSort

variable {α β κ σ : Type*} [LinearOrder κ] {key : α → κ} {target : β → κ}

def ofKey (key : α → κ) (k : κ) (l : List α) : List α := l.filter fun a => key a = k

abbrev Rising (key : α → κ) (l : List α) : Prop := l.Pairwise fun a b => key a ≤ key b

structure Arranged (key : α → κ) (l out : List α) : Prop where
  sorted : Rising key out
  same : ∀ k, ofKey key k out = ofKey key k l

theorem ofKeyAppend (k : κ) (l m : List α) : ofKey key k (l ++ m) = ofKey key k l ++ ofKey key k m :=
  List.filter_append ..

theorem ofKeyNone {k : κ} {l : List α} (none_ : ∀ a ∈ l, key a ≠ k) : ofKey key k l = [] := by
  refine List.filter_eq_nil_iff.mpr fun a mem => ?_
  simpa using none_ a mem

theorem ofKeyPerm {l out : List α} (same : ∀ k, ofKey key k out = ofKey key k l) : out.Perm l := by
  classical
  refine List.perm_iff_count.mpr fun a => ?_
  have one (m : List α) : (ofKey key (key a) m).count a = m.count a := List.count_filter (by simp)
  rw [← one out, ← one l, same]

theorem arrangedMem {l out : List α} (arranged : Arranged key l out) {a : α} : a ∈ out ↔ a ∈ l :=
  (ofKeyPerm arranged.same).mem_iff

theorem risingArranged {l : List α} (sorted : Rising key l) : Arranged key l l := ⟨sorted, fun _ => rfl⟩

theorem insertOfKey {a : α} {l : List α} (k : κ) (sorted : Rising key l) :
    ofKey key k (l.orderedInsert (fun a b => key a ≤ key b) a) = ofKey key k (a :: l) := by
  induction l with
  | nil => rfl
  | cons b rest ih =>
    rw [List.orderedInsert_cons]
    split
    · rfl
    · rename_i above
      have later := ih (List.Pairwise.of_cons sorted)
      have apart : ¬(key a = k ∧ key b = k) := fun both => above (both.1.trans both.2.symm).le
      simp only [ofKey, List.filter_cons] at later ⊢
      rw [later]
      by_cases first : key a = k
      · simp [first, show key b ≠ k from fun second => apart ⟨first, second⟩]
      · simp [first]

theorem sortByArranged (key : α → κ) (l : List α) : Arranged key l (sortBy key l) := by
  refine ⟨sortBySorted key l, fun k => ?_⟩
  induction l with
  | nil => rfl
  | cons a rest ih =>
    refine (insertOfKey k (sortBySorted key rest)).trans ?_
    simp only [ofKey, List.filter_cons] at ih ⊢
    rw [ih]

-- Where each part is replaced by its arrangement, the whole can be arranged as before.
theorem flattenSame {parts runs : List (List α)} (each : List.Forall₂ (Arranged key) parts runs) (k : κ) :
    ofKey key k runs.flatten = ofKey key k parts.flatten := by
  induction each with
  | nil => rfl
  | cons one _ ih => rw [List.flatten_cons, List.flatten_cons, ofKeyAppend, ofKeyAppend, one.same, ih]

/-! ## Merging -/

-- The choices of a merge: the head taken is the least, and less than that of every earlier run.
inductive Merged (key : α → κ) : List (List α) → List α → Prop where
  | done {runs} (empty : ∀ run ∈ runs, run = []) : Merged key runs []
  | take {runs i first rest out} (here : runs[i]? = some (first :: rest))
      (least : ∀ (j : Nat) other more, runs[j]? = some (other :: more) → key first ≤ key other ∧ (j < i → key first < key other))
      (later : Merged key (runs.set i rest) out) : Merged key runs (first :: out)

theorem splitRun {runs : List (List α)} {i : Nat} {run : List α} (rest : List α) (here : runs[i]? = some run) :
    runs = runs.take i ++ run :: runs.drop (i + 1) ∧ runs.set i rest = runs.take i ++ rest :: runs.drop (i + 1) := by
  obtain ⟨short, rfl⟩ := List.getElem?_eq_some_iff.mp here
  refine ⟨?_, List.set_eq_take_append_cons_drop.trans (if_pos short)⟩
  rw [← List.drop_eq_getElem_cons short, List.take_append_drop]

theorem headLeast {run : List α} {k : κ} (sorted : Rising key run)
    (least : ∀ other more, run = other :: more → k < key other) : ∀ a ∈ run, k < key a := by
  cases run with
  | nil => exact fun _ mem => nomatch mem
  | cons other more =>
    intro a mem
    have bound := least other more rfl
    rcases List.mem_cons.mp mem with rfl | later
    · exact bound
    · exact bound.trans_le ((List.pairwise_cons.mp sorted).1 a later)

theorem mergedArranged {runs : List (List α)} {out : List α} (merged : Merged key runs out)
    (sorted : ∀ run ∈ runs, Rising key run) : Arranged key runs.flatten out := by
  induction merged with
  | @done runs empty =>
    have none_ : runs.flatten = [] := List.flatten_eq_nil_iff.mpr empty
    rw [none_]
    exact risingArranged List.Pairwise.nil
  | @take runs i first rest out here least _ ih =>
    obtain ⟨whole, after⟩ := splitRun rest here
    have own : Rising key (first :: rest) := sorted _ (List.mem_of_getElem? here)
    have still : ∀ run ∈ runs.set i rest, Rising key run := by
      intro run mem
      rcases List.mem_or_eq_of_mem_set mem with old | rfl
      · exact sorted run old
      · exact own.of_cons
    have arranged := ih still
    have all : ∀ run ∈ runs, ∀ a ∈ run, key first ≤ key a := by
      intro run mem a inside
      obtain ⟨j, place⟩ := List.mem_iff_getElem?.mp mem
      cases run with
      | nil => cases inside
      | cons other more =>
        have bound := (least j other more place).1
        rcases List.mem_cons.mp inside with rfl | later
        · exact bound
        · exact bound.trans ((List.pairwise_cons.mp (sorted _ mem)).1 a later)
    refine ⟨List.pairwise_cons.mpr ⟨fun a mem => ?_, arranged.sorted⟩, fun k => ?_⟩
    · obtain ⟨run, among, inside⟩ := List.mem_flatten.mp ((arrangedMem arranged).mp mem)
      rcases List.mem_or_eq_of_mem_set among with old | rfl
      · exact all run old a inside
      · exact (List.pairwise_cons.mp own).1 a inside
    · have earlier : key first = k → ofKey key k (runs.take i).flatten = [] := by
        rintro rfl
        refine ofKeyNone fun a mem => ?_
        obtain ⟨run, among, inside⟩ := List.mem_flatten.mp mem
        obtain ⟨j, place⟩ := List.mem_iff_getElem?.mp among
        have before : j < i := by
          by_contra late
          rw [List.getElem?_take_eq_none (Nat.le_of_not_lt late)] at place
          cases place
        rw [List.getElem?_take_of_lt before] at place
        have above := headLeast (sorted run (List.mem_of_getElem? place)) fun other more same =>
          (least j other more (same ▸ place)).2 before
        exact (above a inside).ne'
      have later := arranged.same k
      rw [after, List.flatten_append, List.flatten_cons, ofKeyAppend, ofKeyAppend] at later
      rw [whole, List.flatten_append, List.flatten_cons, ofKeyAppend, List.cons_append]
      simp only [ofKey, List.filter_cons] at later earlier ⊢
      by_cases same : key first = k
      · rw [earlier same] at later ⊢
        simp only [same, decide_true, if_true, List.nil_append]
        rw [later, List.nil_append, List.filter_append]
      · simp only [same, decide_false, Bool.false_eq_true, if_false]
        rw [later, List.filter_append]

/-! ## The last element of a key -/

def lastOf (key : α → κ) (k : κ) (l : List α) : Option α := (ofKey key k l).getLast?

theorem lastArranged {l out : List α} (arranged : Arranged key l out) (k : κ) : lastOf key k out = lastOf key k l :=
  congrArg List.getLast? (arranged.same k)

-- The choices of a join: the elements of one key are consumed, the last of them is put at all targets of the key.
inductive Joined (key : α → κ) (target : β → κ) (put : σ → β → α → σ) : List α → List β → σ → σ → Prop where
  | none (targets s) : Joined key target put [] targets s s
  | ended (l s) : Joined key target put l [] s s
  | run {k run l before here after last s s'} (own : ∀ a ∈ run, key a = k) (other : ∀ a ∈ l.head?, key a ≠ k)
      (skipped : ∀ b ∈ before, target b < k) (hit : ∀ b ∈ here, target b = k)
      (past : ∀ b ∈ after.head?, target b ≠ k ∧ ¬ target b < k) (last_ : run.getLast? = some last)
      (later : Joined key target put l after (here.foldl (fun s b => put s b last) s) s') :
      Joined key target put (run ++ l) (before ++ (here ++ after)) s s'

theorem risingAbove {l : List α} {k : κ} (sorted : Rising key l) (first : ∀ a ∈ l.head?, k < key a) :
    ∀ a ∈ l, k < key a :=
  headLeast sorted fun other _ same => first other (by rw [same]; rfl)

theorem ofKeyAll {k : κ} {l : List α} (all : ∀ a ∈ l, key a = k) : ofKey key k l = l :=
  List.filter_eq_self.mpr fun a mem => by simpa using all a mem

def putLast (key : α → κ) (target : β → κ) (put : σ → β → α → σ) (l : List α) (s : σ) (b : β) : σ :=
  match lastOf key (target b) l with
  | none => s
  | some a => put s b a

-- The targets of one key stand together where they rise.
theorem targetsCut {l : List β} (ordered : Rising target l) (k : κ) :
    ∃ before here after, l.takeWhile (target · < k) = before ∧ l.dropWhile (target · < k) = here ++ after ∧
      (l.dropWhile (target · < k)).takeWhile (target · = k) = here ∧
      (l.dropWhile (target · < k)).dropWhile (target · = k) = after ∧ (∀ b ∈ before, target b < k) ∧
      (∀ b ∈ here, target b = k) ∧ ∀ b ∈ after.head?, target b ≠ k ∧ ¬target b < k := by
  have rest : Rising target (l.dropWhile (target · < k)) := ordered.sublist (List.dropWhile_sublist _)
  have least : ∀ b ∈ l.dropWhile (target · < k), ¬target b < k := by
    have first := List.head?_dropWhile_not (target · < k) l
    generalize l.dropWhile (target · < k) = left at *
    cases left with
    | nil => exact fun _ mem => nomatch mem
    | cons a more =>
      intro b mem
      have low : ¬target a < k := by simpa using first
      rcases List.mem_cons.mp mem with rfl | later
      · exact low
      · exact fun less => low (((List.pairwise_cons.mp rest).1 b later).trans_lt less)
  refine ⟨_, _, _, rfl, (List.takeWhile_append_dropWhile ..).symm, rfl, rfl, fun b mem => ?_, fun b mem => ?_,
    fun b mem => ⟨?_, least b ((List.dropWhile_sublist _).subset (List.mem_of_mem_head? mem))⟩⟩
  · simpa using List.all_eq_true.mp List.all_takeWhile b mem
  · simpa using List.all_eq_true.mp List.all_takeWhile b mem
  · have other := List.head?_dropWhile_not (target · = k) (l.dropWhile (target · < k))
    rw [Option.mem_def.mp mem] at other
    simpa using other

theorem joinedFold {put : σ → β → α → σ} {l : List α} {targets : List β} {s s' : σ}
    (joined : Joined key target put l targets s s') (sorted : Rising key l) (ordered : Rising target targets) :
    s' = targets.foldl (putLast key target put l) s := by
  induction joined with
  | none targets s =>
    induction targets with
    | nil => rfl
    | cons b rest ih => exact ih ordered.of_cons
  | ended l s => rfl
  | @run k run l before here after last s s' own other skipped hit past last_ _ ih =>
    obtain ⟨-, sortedL, cross⟩ := List.pairwise_append.mp sorted
    obtain ⟨-, orderedRest, -⟩ := List.pairwise_append.mp ordered
    obtain ⟨-, orderedAfter, -⟩ := List.pairwise_append.mp orderedRest
    have some_ : last ∈ run := List.mem_of_getLast? last_
    have beyond : ∀ a ∈ l, k < key a := risingAbove sortedL fun a mem =>
      lt_of_le_of_ne (own last some_ ▸ cross last some_ a (List.mem_of_mem_head? mem)) (other a mem).symm
    have above : ∀ b ∈ after, k < target b := risingAbove orderedAfter fun b mem =>
      lt_of_le_of_ne (not_lt.mp (past b mem).2) (past b mem).1.symm
    have below : ∀ s, before.foldl (putLast key target put (run ++ l)) s = s := by
      intro s
      refine List.foldlRecOn before _ (motive := (· = s)) rfl ?_
      rintro _ rfl b mem
      have none_ : lastOf key (target b) (run ++ l) = none := by
        rw [lastOf, ofKeyNone fun a inside => ?_, List.getLast?_nil]
        rcases List.mem_append.mp inside with first | second
        · exact (own a first).symm ▸ (skipped b mem).ne'
        · exact ((skipped b mem).trans (beyond a second)).ne'
      rw [putLast, none_]
    have own_ : ∀ b ∈ here, ∀ s, putLast key target put (run ++ l) s b = put s b last := by
      intro b mem s
      have found : lastOf key (target b) (run ++ l) = some last := by
        rw [lastOf, hit b mem, ofKeyAppend, ofKeyAll own, ofKeyNone fun a inside => (beyond a inside).ne',
          List.append_nil, last_]
      rw [putLast, found]
    have rest : ∀ b ∈ after, ∀ s, putLast key target put (run ++ l) s b = putLast key target put l s b := by
      intro b mem s
      have same : lastOf key (target b) (run ++ l) = lastOf key (target b) l := by
        rw [lastOf, ofKeyAppend, ofKeyNone fun a inside => (own a inside).symm ▸ (above b mem).ne, List.nil_append]
        rfl
      rw [putLast, putLast, same]
    rw [List.foldl_append, List.foldl_append, below, ih sortedL orderedAfter]
    have middle : here.foldl (putLast key target put (run ++ l)) s = here.foldl (fun s b => put s b last) s :=
      List.foldl_ext _ _ _ fun s b mem => own_ b mem s
    rw [middle]
    exact (List.foldl_ext _ _ _ fun s b mem => rest b mem s).symm

end General.KeyedStream
