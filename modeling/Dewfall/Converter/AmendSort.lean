import Dewfall.Converter.AttributeAmend

/-! What is spilled of the values that are added, and that the sorted file holds them by key in the order they
were added. A run of more records than 32 bits can number is the exception. -/
namespace Dewfall.AmendSort
open General General.StableSort General.KeyedStream SpillFile TreeMerge AttributeAmend

abbrev Added := List (UInt64 × Bytes)

def recordOf (e : UInt64 × Bytes) : Bytes := littleEndian 8 e.1.toNat ++ e.2

def records (added : Added) : List Bytes := added.map recordOf

/-! ## Records -/

theorem littleEndianLength (width n : Nat) : (littleEndian width n).length = width := by
  induction width generalizing n with
  | zero => rfl
  | succ width ih => rw [littleEndian, List.length_cons, ih]

theorem decodeEncoded (width n : Nat) : AttributeAmend.decode (littleEndian width n) = n % 256 ^ width := by
  induction width generalizing n with
  | zero => rw [Nat.pow_zero, Nat.mod_one]; rfl
  | succ width ih =>
    rw [littleEndian, AttributeAmend.decode, ih, Nat.pow_succ', Nat.mod_mul]
    congr 1

theorem recordKeyOf (e : UInt64 × Bytes) : recordKey (recordOf e) = e.1.toNat := by
  rw [recordKey, recordOf, List.take_append_of_le_length (Nat.le_of_eq (littleEndianLength ..).symm),
    List.take_of_length_le (Nat.le_of_eq (littleEndianLength ..)), decodeEncoded]
  exact Nat.mod_eq_of_lt e.1.toNat_lt

theorem recordValue (e : UInt64 × Bytes) : (recordOf e).drop 8 = e.2 :=
  List.drop_left' (littleEndianLength ..)

structure Spilled (p : PendingAttribute) (added : Added) : Prop where
  wrote : Wrote p.spill (records added)
  width : p.spill.recordSize = recordSize p.info
  values : ∀ e ∈ added, e.2.length = elementSize p
  last : p.lastKey = added.getLast?.map Prod.fst
  rising : p.ascending = true → Rising recordKey (records added)

theorem recordLength {p : PendingAttribute} {e : UInt64 × Bytes} (sized : e.2.length = elementSize p) :
    (recordOf e).length = recordSize p.info := by
  rw [recordOf, List.length_append, littleEndianLength, sized]
  rfl

theorem declaredSpilled (info : Attribute) (keyAttribute : List Char) :
    Spilled ⟨info, keyAttribute, openWrite (recordSize info), none, true⟩ [] :=
  ⟨openWrote _, rfl, by simp, rfl, fun _ => List.Pairwise.nil⟩

theorem addRecordSpilled {p : PendingAttribute} {added : Added} (spilled : Spilled p added) (key : UInt64)
    {value : Bytes} (sized : value.length = elementSize p) : Spilled (addRecord p key value) (added ++ [(key, value)]) := by
  have width : (recordOf (key, value)).length = p.spill.recordSize := by
    rw [spilled.width]
    exact recordLength sized
  obtain ⟨wrote, same⟩ := appendWrote spilled.wrote width
  refine ⟨?_, same.trans spilled.width, fun e mem => ?_, ?_, fun rising => ?_⟩
  · rw [records, List.map_append, List.map_singleton]
    exact wrote
  · rcases List.mem_append.mp mem with old | new
    · exact spilled.values e old
    · rw [List.mem_singleton.mp new]
      exact sized
  · rw [List.getLast?_append, List.getLast?_singleton]
    rfl
  · rw [addRecord] at rising
    dsimp only at rising
    rw [Bool.and_eq_true, spilled.last] at rising
    have sorted := spilled.rising rising.1
    rw [records, List.map_append, List.map_singleton]
    refine List.pairwise_append.mpr ⟨sorted, List.pairwise_singleton .., fun a mem b new => ?_⟩
    rw [List.mem_singleton.mp new, recordKeyOf]
    cases whole : added.getLast? with
    | none =>
      rw [List.getLast?_eq_none_iff.mp whole] at mem
      cases mem
    | some e =>
      rw [whole] at rising
      obtain ⟨front, rfl⟩ := List.getLast?_eq_some_iff.mp whole
      have bound : e.1.toNat ≤ key.toNat := by
        have keep := rising.2
        simp only [Option.map_some, Option.any_some, Bool.not_eq_true', decide_eq_false_iff_not] at keep
        exact Nat.le_of_not_lt fun less => keep less
      rw [records, List.map_append, List.map_singleton] at sorted
      rw [List.map_append, List.map_singleton] at mem
      rcases List.mem_append.mp mem with early | final
      · have before := (List.pairwise_append.mp sorted).2.2 a early (recordOf e) (List.mem_singleton_self _)
        rw [recordKeyOf] at before
        exact before.trans bound
      · rw [List.mem_singleton.mp final, recordKeyOf]
        exact bound

/-! ## Runs -/

theorem stageRunReads {r : Reader} {records : List Bytes} (reads : Reads r records) (left : Nat) (block : List Bytes) :
    ∃ after, stageRun left r block = .ok (block ++ records.take left, after, decide (left ≤ records.length)) ∧
      Reads after (records.drop left) ∧ after.recordSize = r.recordSize := by
  induction left generalizing r records block with
  | zero =>
    refine ⟨r, ?_, reads, rfl⟩
    rw [stageRun, List.take_zero, List.append_nil]
    simp
  | succ left ih =>
    cases records with
    | nil =>
      refine ⟨r, ?_, reads, rfl⟩
      rw [stageRun, nextFinished reads]
      simp
    | cons record rest =>
      obtain ⟨middle, read, later, width⟩ := nextRecord reads
      obtain ⟨after, staged, left_, width'⟩ := ih later (block ++ [record])
      refine ⟨after, ?_, left_, width'.trans width⟩
      rw [stageRun, read]
      dsimp only
      rw [staged, List.take_succ_cons, List.append_assoc, List.length_cons]
      simp

theorem numbered {n : Nat} (narrow : n ≤ 2 ^ 32) : (List.range n).map u32 = List.range n := by
  refine (List.map_congr_left fun i mem => ?_).trans (List.map_id _)
  exact u32Small (Nat.lt_of_lt_of_le (List.mem_range.mp mem) narrow)

theorem rangeMap (block : List Bytes) : (List.range block.length).map (fun i => block.getD i []) = block := by
  refine List.ext_getElem (by simp) fun i _ short => ?_
  simp [short]

theorem sortRunArranged {block : List Bytes} (narrow : block.length ≤ 2 ^ 32) :
    Arranged recordKey block (sortRun block) := by
  have mapped := List.map_insertionSort (fun a b => recordKey (block.getD a []) ≤ recordKey (block.getD b []))
    (fun a b => recordKey a ≤ recordKey b) (fun i => block.getD i []) (List.range block.length)
    (fun a _ b _ => Iff.rfl)
  have same : sortRun block = sortBy recordKey block := by
    rw [sortRun, numbered narrow, sortBy, mapped, rangeMap]
    rfl
  rw [same]
  exact sortByArranged recordKey block

theorem writeAllWrote {width : Nat} (run : List Bytes) {w : Writer} {before : List Bytes} (wrote : Wrote w before)
    (same : w.recordSize = width) (sized : ∀ record ∈ run, record.length = width) :
    Wrote (run.foldl append w) (before ++ run) := by
  induction run generalizing w before with
  | nil => rwa [List.append_nil]
  | cons record rest ih =>
    obtain ⟨first, kept⟩ := appendWrote wrote ((sized record List.mem_cons_self).trans same.symm)
    have later := ih first (kept.trans same) fun other mem => sized other (List.mem_cons_of_mem _ mem)
    rwa [List.append_assoc] at later

theorem writeRunFlatten {width : Nat} {run : List Bytes} (sized : ∀ record ∈ run, record.length = width) :
    writeRun width run = run.flatten :=
  (flushWrote (writeAllWrote run (openWrote width) rfl sized)).2

theorem formRunsSpec {perRun width : Nat} (positive : 0 < perRun) (fuel : Nat) {r : Reader} {l : List Bytes}
    (reads : Reads r l) (same : r.recordSize = width) (enough : l.length < fuel)
    (narrow : perRun ≤ 2 ^ 32 ∨ l.length ≤ 2 ^ 32) :
    ∃ parts runs, formRuns perRun width fuel r = .ok (runs.map List.flatten) ∧ parts.flatten = l ∧
      List.Forall₂ (Arranged recordKey) parts runs ∧ runs.length * perRun < l.length + perRun := by
  induction fuel generalizing r l with
  | zero => cases enough
  | succ fuel ih =>
    obtain ⟨after, staged, later, width'⟩ := stageRunReads reads perRun []
    rw [List.nil_append] at staged
    have sized : ∀ record ∈ l, record.length = width := fun record mem => same ▸ reads.sized record mem
    rw [formRuns, staged]
    dsimp only
    split
    · rename_i none_
      have empty : l = [] := (List.take_eq_nil_iff.mp none_).resolve_left (Nat.ne_of_gt positive)
      refine ⟨[], [], rfl, empty.symm, .nil, ?_⟩
      rw [List.length_nil, Nat.zero_mul]
      exact Nat.lt_of_lt_of_le positive (Nat.le_add_left ..)
    · rename_i some_
      have short : (l.take perRun).length ≤ 2 ^ 32 := by
        rw [List.length_take]
        omega
      have arranged := sortRunArranged short
      have flat : writeRun width (sortRun (l.take perRun)) = (sortRun (l.take perRun)).flatten :=
        writeRunFlatten fun record mem => sized record (List.mem_of_mem_take ((arrangedMem arranged).mp mem))
      split
      · rename_i more
        have long : l ≠ [] := fun none_ => some_ (by rw [none_, List.take_nil])
        have pos := List.length_pos_iff.mpr long
        obtain ⟨parts, runs, formed, whole, each, count⟩ := ih later (width'.trans same)
          (by rw [List.length_drop]; omega) (narrow.imp_right fun small => by rw [List.length_drop]; omega)
        refine ⟨l.take perRun :: parts, sortRun (l.take perRun) :: runs, ?_, ?_, .cons arranged each, ?_⟩
        · rw [formed, flat]
          rfl
        · rw [List.flatten_cons, whole, List.take_append_drop]
        · have filled : perRun ≤ l.length := of_decide_eq_true more
          rw [List.length_drop] at count
          rw [List.length_cons, Nat.succ_mul]
          omega
      · rename_i ended
        have all : l.length ≤ perRun := by
          simp only [decide_eq_true_eq] at ended
          omega
        refine ⟨[l], [sortRun (l.take perRun)], ?_, List.flatten_singleton, ?_, ?_⟩
        · rw [flat]
          rfl
        · rw [List.take_of_length_le all] at arranged ⊢
          exact .cons arranged .nil
        · have long : l ≠ [] := fun none_ => some_ (by rw [none_, List.take_nil])
          have pos := List.length_pos_iff.mpr long
          rw [List.length_singleton, Nat.one_mul]
          omega

/-! ## The queue -/

theorem topNone {heap : List HeapEntry} (none_ : top heap = none) : heap = [] := by
  cases heap with
  | nil => rfl
  | cons e rest =>
    rw [top] at none_
    split at none_
    · cases none_
    · split at none_ <;> cases none_

theorem topLeast {heap : List HeapEntry} {e : HeapEntry} (best : top heap = some e) :
    e ∈ heap ∧ ∀ other ∈ heap, e.key ≤ other.key ∧ (e.key = other.key → e.run ≤ other.run) := by
  induction heap generalizing e with
  | nil => cases best
  | cons first rest ih =>
    rw [top] at best
    split at best
    · rename_i none_
      cases best
      rw [topNone none_]
      refine ⟨List.mem_cons_self, fun other mem => ?_⟩
      rw [List.mem_singleton.mp mem]
      exact ⟨le_rfl, fun _ => le_rfl⟩
    · rename_i least found
      obtain ⟨inside, below⟩ := ih found
      split at best
      · rename_i later
        cases best
        refine ⟨List.mem_cons_of_mem _ inside, fun other mem => ?_⟩
        rcases List.mem_cons.mp mem with rfl | old
        · rw [worse] at later
          split at later
          · simp only [decide_eq_true_eq] at later
            omega
          · simp only [decide_eq_true_eq] at later
            omega
        · exact below other old
      · rename_i earlier
        cases best
        refine ⟨List.mem_cons_self, fun other mem => ?_⟩
        rcases List.mem_cons.mp mem with rfl | old
        · exact ⟨le_rfl, fun _ => le_rfl⟩
        · have bound := below other old
          rw [worse] at earlier
          split at earlier
          · simp only [decide_eq_true_eq] at earlier
            omega
          · simp only [decide_eq_true_eq] at earlier
            omega

-- The entries are heads of the runs; a run that is `done` is read up to behind its head.
structure Primed (readers : List Reader) (heap : List HeapEntry) (runs : List (List Bytes)) (done : Nat → Prop) :
    Prop where
  length : readers.length = runs.length
  entries : ∀ e ∈ heap, done e.run ∧ e.key = recordKey e.record ∧ ∃ rest, runs[e.run]? = some (e.record :: rest)
  heads : ∀ i record rest, done i → runs[i]? = some (record :: rest) → ∃ e ∈ heap, e.run = i
  ahead : ∀ (i : Nat) reader run, done i → readers[i]? = some reader → runs[i]? = some run → Reads reader run.tail
  behind : ∀ (i : Nat) reader run, ¬done i → readers[i]? = some reader → runs[i]? = some run → Reads reader run

theorem pushNextPrimed {readers : List Reader} {heap : List HeapEntry} {runs : List (List Bytes)} {done : Nat → Prop}
    (primed : Primed readers heap runs done) {i : Nat} (fresh : ¬done i) (short : i < runs.length) :
    ∃ readers' heap', pushNext readers heap i = .ok (readers', heap') ∧
      Primed readers' heap' runs fun j => done j ∨ j = i := by
  obtain ⟨reader, here⟩ : ∃ reader, readers[i]? = some reader :=
    ⟨_, List.getElem?_eq_getElem (primed.length ▸ short)⟩
  obtain ⟨run, place⟩ : ∃ run, runs[i]? = some run := ⟨_, List.getElem?_eq_getElem short⟩
  have reads := primed.behind i reader run fresh here place
  cases run with
  | nil =>
    refine ⟨readers, heap, by rw [pushNext, here, Option.map_some, nextFinished reads], primed.length, ?_, ?_, ?_, ?_⟩
    · intro e mem
      obtain ⟨known, key, rest⟩ := primed.entries e mem
      exact ⟨Or.inl known, key, rest⟩
    · rintro j record rest (known | rfl) there
      · exact primed.heads j record rest known there
      · rw [place] at there
        cases there
    · rintro j reader' run (known | rfl) there other
      · exact primed.ahead j reader' run known there other
      · rw [here] at there
        rw [place] at other
        cases there
        cases other
        exact reads
    · intro j reader' run new there other
      exact primed.behind j reader' run (fun known => new (Or.inl known)) there other
  | cons record rest =>
    obtain ⟨after, read, later, -⟩ := nextRecord reads
    have put_ (j : Nat) (apart : j ≠ i) : (readers.set i after)[j]? = readers[j]? :=
      List.getElem?_set_ne apart.symm
    refine ⟨readers.set i after, heap ++ [⟨recordKey record, i, record⟩],
      by rw [pushNext, here, Option.map_some, read], (List.length_set ..).trans primed.length, ?_, ?_, ?_, ?_⟩
    · intro e mem
      rcases List.mem_append.mp mem with old | new
      · obtain ⟨known, key, rest⟩ := primed.entries e old
        exact ⟨Or.inl known, key, rest⟩
      · rw [List.mem_singleton.mp new]
        exact ⟨Or.inr rfl, rfl, rest, place⟩
    · rintro j head tail (known | rfl) there
      · obtain ⟨e, mem, same⟩ := primed.heads j head tail known there
        exact ⟨e, List.mem_append_left _ mem, same⟩
      · exact ⟨_, List.mem_append_right _ (List.mem_singleton_self _), rfl⟩
    · rintro j reader' run known there other
      by_cases same : j = i
      · subst same
        rw [List.getElem?_set_self (primed.length ▸ short)] at there
        rw [place] at other
        cases there
        cases other
        exact later
      · rw [put_ j same] at there
        exact primed.ahead j reader' run (known.resolve_right same) there other
    · intro j reader' run new there other
      rw [put_ j fun same => new (Or.inr same)] at there
      exact primed.behind j reader' run (fun known => new (Or.inl known)) there other

theorem pushFirstPrimed {runs : List (List Bytes)} (count : Nat) {readers : List Reader} {heap : List HeapEntry} {first : Nat}
    (primed : Primed readers heap runs fun j => j < first) (whole : first + count = runs.length) :
    ∃ readers' heap', pushFirst (List.range' first count) readers heap = .ok (readers', heap') ∧
      Primed readers' heap' runs fun j => j < runs.length := by
  induction count generalizing readers heap first with
  | zero => exact ⟨readers, heap, rfl, whole ▸ primed⟩
  | succ count ih =>
    obtain ⟨readers', heap', pushed, after⟩ := pushNextPrimed primed (Nat.lt_irrefl first) (by omega)
    have next_ : (fun j => j < first ∨ j = first) = fun j => j < first + 1 := by
      funext j
      exact propext (by omega)
    rw [next_] at after
    obtain ⟨readers'', heap'', all, primed'⟩ := ih after (by omega)
    refine ⟨readers'', heap'', ?_, primed'⟩
    rw [List.range'_succ, pushFirst, pushed]
    exact all

theorem popPrimed {readers : List Reader} {heap : List HeapEntry} {runs : List (List Bytes)} {done : Nat → Prop}
    (primed : Primed readers heap runs done) {e : HeapEntry} (mem : e ∈ heap) {rest : List Bytes}
    (here : runs[e.run]? = some (e.record :: rest)) :
    Primed readers (pop heap e) (runs.set e.run rest) fun j => done j ∧ j ≠ e.run := by
  obtain ⟨short, -⟩ := List.getElem?_eq_some_iff.mp here
  have other (j : Nat) (apart : j ≠ e.run) : (runs.set e.run rest)[j]? = runs[j]? := List.getElem?_set_ne apart.symm
  refine ⟨primed.length.trans (List.length_set ..).symm, fun o inside => ?_, fun j record more known there => ?_,
    fun j reader run known there place => ?_, fun j reader run new there place => ?_⟩
  · obtain ⟨old, apart⟩ := List.mem_filter.mp inside
    simp only [decide_eq_true_eq] at apart
    obtain ⟨known, key, more, place⟩ := primed.entries o old
    exact ⟨⟨known, apart⟩, key, more, (other o.run apart).trans place⟩
  · rw [other j known.2] at there
    obtain ⟨o, old, same⟩ := primed.heads j record more known.1 there
    exact ⟨o, List.mem_filter.mpr ⟨old, by simpa [same] using known.2⟩, same⟩
  · rw [other j known.2] at place
    exact primed.ahead j reader run known.1 there place
  · by_cases same : j = e.run
    · subst same
      rw [List.getElem?_set_self short] at place
      cases place
      exact primed.ahead e.run reader _ (primed.entries e mem).1 there here
    · rw [other j same] at place
      exact primed.behind j reader run (fun known => new ⟨known, same⟩) there place

theorem mergeRunsMerged {width : Nat} (fuel : Nat) {readers : List Reader} {heap : List HeapEntry} {runs : List (List Bytes)}
    {out : Writer} {before : List Bytes} (primed : Primed readers heap runs fun j => j < runs.length)
    (sized : ∀ run ∈ runs, ∀ record ∈ run, record.length = width) (wrote : Wrote out before) (same : out.recordSize = width)
    (enough : runs.flatten.length < fuel) :
    ∃ out' merged, mergeRuns fuel readers heap out = .ok out' ∧ Merged recordKey runs merged ∧
      Wrote out' (before ++ merged) := by
  induction fuel generalizing readers heap runs out before with
  | zero => cases enough
  | succ fuel ih =>
    rw [mergeRuns]
    split
    · rename_i none_
      refine ⟨out, [], rfl, .done fun run mem => ?_, by rwa [List.append_nil]⟩
      obtain ⟨i, place⟩ := List.mem_iff_getElem?.mp mem
      cases run with
      | nil => rfl
      | cons record rest =>
        obtain ⟨e, inside, -⟩ := primed.heads i record rest (List.getElem?_eq_some_iff.mp place).1 place
        rw [topNone none_] at inside
        cases inside
    · rename_i e best
      obtain ⟨mem, least⟩ := topLeast best
      obtain ⟨inside, key, rest, here⟩ := primed.entries e mem
      have popped := popPrimed primed mem here
      have room : e.run < (runs.set e.run rest).length := by rwa [List.length_set]
      obtain ⟨readers', heap', pushed, after⟩ := pushNextPrimed popped (fun known => known.2 rfl) room
      have all : (fun j => (j < runs.length ∧ j ≠ e.run) ∨ j = e.run) = fun j => j < (runs.set e.run rest).length := by
        funext j
        rw [List.length_set]
        exact propext (by omega)
      rw [all] at after
      obtain ⟨whole, left⟩ := splitRun rest here
      have shorter : (runs.set e.run rest).flatten.length < fuel := by
        have total := congrArg (fun l : List (List Bytes) => l.flatten.length) whole
        simp only [List.flatten_append, List.flatten_cons, List.length_append, List.length_cons] at total
        rw [left]
        simp only [List.flatten_append, List.flatten_cons, List.length_append]
        omega
      have sized' : ∀ run ∈ runs.set e.run rest, ∀ record ∈ run, record.length = width := by
        intro run among record within
        rcases List.mem_or_eq_of_mem_set among with old | rfl
        · exact sized run old record within
        · exact sized _ (List.mem_of_getElem? here) record (List.mem_cons_of_mem _ within)
      have fits : e.record.length = out.recordSize :=
        (sized _ (List.mem_of_getElem? here) _ List.mem_cons_self).trans same.symm
      obtain ⟨wrote', kept⟩ := appendWrote wrote fits
      obtain ⟨out', merged, done, merged_, final⟩ := ih after sized' wrote' (kept.trans same) shorter
      refine ⟨out', e.record :: merged, ?_, .take here (fun j other more place => ?_) merged_, ?_⟩
      · rw [pushed]
        exact done
      · obtain ⟨o, known, rfl⟩ := primed.heads j other more (List.getElem?_eq_some_iff.mp place).1 place
        obtain ⟨-, okey, orest, oplace⟩ := primed.entries o known
        rw [place] at oplace
        cases oplace
        obtain ⟨le, tie⟩ := least o known
        rw [key, okey] at le tie
        exact ⟨le, fun earlier => lt_of_le_of_ne le fun equal => Nat.not_le.mpr earlier (tie equal)⟩
      · rwa [List.append_assoc] at final

/-! ## The sorted file -/

theorem flattenLength {width : Nat} (positive : 0 < width) {l : List Bytes} (sized : ∀ record ∈ l, record.length = width) :
    l.length ≤ l.flatten.length := by
  induction l with
  | nil => exact Nat.le_refl _
  | cons record rest ih =>
    have later := ih fun other mem => sized other (List.mem_cons_of_mem _ mem)
    have first := sized record List.mem_cons_self
    rw [List.flatten_cons, List.length_append, List.length_cons]
    omega

-- The records of a run can be numbered in 32 bits, and so can the runs.
def Narrow (budget width count : Nat) : Prop :=
  (max 1 (budget / width) ≤ 2 ^ 32 ∨ count ≤ 2 ^ 32) ∧ count ≤ (2 ^ 32 - 1) * max 1 (budget / width)

theorem mergedFile {width : Nat} (positive : 0 < width) {runs : List (List Bytes)} {fuel : Nat}
    (sized : ∀ run ∈ runs, ∀ record ∈ run, record.length = width) (enough : runs.flatten.length < fuel)
    (few : runs.length < 2 ^ 32) :
    ∃ readers heap out merged,
      pushFirst (List.range (u32 runs.length)) (runs.map fun run => openRead run.flatten width) [] = .ok (readers, heap) ∧
      mergeRuns fuel readers heap (openWrite width) = .ok out ∧ (flush out).file = merged.flatten ∧
      Merged recordKey runs merged := by
  have start : Primed (runs.map fun run => openRead run.flatten width) [] runs fun j => j < 0 := by
    refine ⟨List.length_map .., by simp, fun _ _ _ known => absurd known (Nat.not_lt_zero _),
      fun _ _ _ known => absurd known (Nat.not_lt_zero _), fun i reader run _ there place => ?_⟩
    rw [List.getElem?_map, place] at there
    cases there
    exact openReads positive (sized run (List.mem_of_getElem? place))
  obtain ⟨readers, heap, pushed, primed⟩ := pushFirstPrimed runs.length start (Nat.zero_add _)
  obtain ⟨out, merged, done, merged_, wrote⟩ := mergeRunsMerged fuel primed sized (openWrote width) rfl enough
  refine ⟨readers, heap, out, merged, ?_, done, (flushWrote wrote).2, merged_⟩
  rw [u32Small few, List.range_eq_range']
  exact pushed

theorem sortSpillArranged {budget width : Nat} {l : List Bytes} (positive : 0 < width)
    (sized : ∀ record ∈ l, record.length = width) (narrow : Narrow budget width l.length) :
    ∃ sorted, sortSpillByKey budget l.flatten width = .ok sorted.flatten ∧ Arranged recordKey l sorted := by
  have long := flattenLength positive sized
  have filled : 0 < max 1 (budget / width) := Nat.lt_of_lt_of_le Nat.one_pos (Nat.le_max_left ..)
  obtain ⟨parts, runs, formed, rfl, each, count⟩ := formRunsSpec filled
    (l.flatten.length + 1) (openReads positive sized) (show _ = width from rfl) (Nat.lt_succ_of_le long) narrow.1
  have few : runs.length < 2 ^ 32 := by
    refine Nat.lt_of_mul_lt_mul_right (a := max 1 (budget / width)) (count.trans_le ?_)
    have bound := narrow.2
    omega
  have pairs := List.forall₂_iff_get.mp each
  have arranged : ∀ run ∈ runs, ∃ part ∈ parts, Arranged recordKey part run := by
    intro run mem
    obtain ⟨i, bound, rfl⟩ := List.mem_iff_getElem.mp mem
    exact ⟨_, List.getElem_mem (pairs.1 ▸ bound), pairs.2 i (pairs.1 ▸ bound) bound⟩
  have sized' : ∀ run ∈ runs, ∀ record ∈ run, record.length = width := by
    intro run mem record inside
    obtain ⟨part, among, arranged⟩ := arranged run mem
    exact sized record (List.mem_flatten.mpr ⟨part, among, (arrangedMem arranged).mp inside⟩)
  have rising : ∀ run ∈ runs, Rising recordKey run := fun run mem => (arranged run mem).elim fun _ both => both.2.sorted
  have total : runs.flatten.length ≤ parts.flatten.flatten.length := by
    rw [(ofKeyPerm (flattenSame each)).length_eq]
    exact long
  obtain ⟨readers, heap, out, merged, pushed, done, file, merged_⟩ :=
    mergedFile positive sized' (Nat.lt_succ_of_le total) few
  have whole := mergedArranged merged_ rising
  have result : ∃ sorted, sortSpillByKey budget parts.flatten.flatten width = .ok sorted.flatten ∧
      Arranged recordKey runs.flatten sorted := by
    unfold sortSpillByKey
    dsimp only
    rw [formed]
    have several : pushFirst (List.range (u32 (runs.map List.flatten).length))
        ((runs.map List.flatten).map fun run => openRead run width) [] = .ok (readers, heap) := by
      rw [List.length_map, List.map_map]
      exact pushed
    cases runs with
    | nil =>
      refine ⟨merged, ?_, whole⟩
      simp only [List.map_nil] at several ⊢
      rw [several]
      dsimp only
      rw [done]
      dsimp only
      rw [file]
    | cons one others =>
      cases others with
      | nil => exact ⟨one, rfl, by simpa using risingArranged (rising one List.mem_cons_self)⟩
      | cons two rest =>
        refine ⟨merged, ?_, whole⟩
        simp only [List.map_cons] at several ⊢
        rw [several]
        dsimp only
        rw [done]
        dsimp only
        rw [file]
  obtain ⟨sorted, ok, arranged⟩ := result
  exact ⟨sorted, ok, arranged.sorted, fun k => (arranged.same k).trans (flattenSame each k)⟩

theorem sortedValuesArranged {budget : Nat} {p : PendingAttribute} {added : Added} (spilled : Spilled p added)
    (narrow : p.ascending = true ∨ Narrow budget (recordSize p.info) added.length) :
    ∃ sorted, sortedValues budget p = .ok sorted.flatten ∧ Arranged recordKey (records added) sorted := by
  have file : (flush p.spill).file = (records added).flatten := (flushWrote spilled.wrote).2
  have positive : 0 < recordSize p.info := Nat.lt_of_lt_of_le (by decide) (Nat.le_add_right 8 _)
  have sized : ∀ record ∈ records added, record.length = recordSize p.info := by
    intro record mem
    obtain ⟨e, inside, rfl⟩ := List.mem_map.mp mem
    exact recordLength (spilled.values e inside)
  unfold sortedValues
  rw [file]
  split
  · rename_i ascending
    exact ⟨records added, rfl, risingArranged (spilled.rising ascending)⟩
  · rename_i unordered
    have small := narrow.resolve_left unordered
    rw [show added.length = (records added).length from (List.length_map ..).symm] at small
    exact sortSpillArranged positive sized small

end Dewfall.AmendSort
