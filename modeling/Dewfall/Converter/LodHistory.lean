import Dewfall.Converter.ArrayLeaves
import Dewfall.Converter.LodBuilt
import Dewfall.Converter.LodPublish

/-! The history of passes: what has happened before a worker starts, before a level is published and before a pass is
reported. Whether a pass ends is left to the loops' scheduling; that it can always go on is not. -/
namespace Dewfall.LodHistory
open General General.History General.Transition
open StorageMap PointSplitter TreeReparent LodWork LodGather LodPass LodSchedule LodPublish
open ArrayForm (Formed childIndex)
open LodBuilt (freshPlain formedShaped wiredGood)
open ArrayLeaves (insertAll)
open TreeBuildRuns (batchOf readFrom)

/-! ## What an event comes after -/

def Finished (before : List Event) (serial : Nat) (works : List TreeWork) : Prop :=
  ∀ i w, works[i]? = some w → ∀ l ≤ 4, w.nodes l ≠ [] → .publish serial i l ∈ before

-- A worker starts once, after the levels under its node and all batches before its own.
structure Starts (before : List Event) (serial i level k : Nat) : Prop where
  once : .start serial i level k ∉ before
  deeper : ∀ works w, .queued serial works ∈ before → works[i]? = some w → ∀ l, level < l → l ≤ 4 → w.nodes l ≠ [] →
    .publish serial i l ∈ before
  earlier : ∀ serial' works, .queued serial' works ∈ before → serial' < serial → Finished before serial' works
  own : ∃ works w n, .queued serial works ∈ before ∧ works[i]? = some w ∧ (w.nodes level)[k]? = some n

-- A level is published once, after every worker of it has written.
structure Publishes (before : List Event) (serial i level : Nat) : Prop where
  once : .publish serial i level ∉ before
  written : ∀ works w, .queued serial works ∈ before → works[i]? = some w → ∀ k < (w.nodes level).length,
    .written serial i level k ∈ before

def Fits (before : List Event) : Event → Prop
  | .queued serial _ => ∀ works, .queued serial works ∉ before
  | .start serial i level k => Starts before serial i level k
  | .written serial i level k => .start serial i level k ∈ before
  | .publish serial i level => Publishes before serial i level
  | .done => ∀ serial works, .queued serial works ∈ before → Finished before serial works

/-! ## A run and its events -/

structure RunRecord (log : List Event) (workers : List Worker) (loop : Loop) (serial i : Nat) (run : Run) : Prop where
  published : ∀ l ≤ 4, Past run l → run.work.nodes l ≠ [] → .publish serial i l ∈ log
  fresh : ∀ l, .publish serial i l ∈ log → Past run l
  starts : ∀ l k, .start serial i l k ∈ log → Past run l ∨ run.level = some l ∧ k < enqueued loop i run.inFlight
  wrote : ∀ level, run.level = some level → ∀ k < enqueued loop i run.inFlight,
    ⟨serial, i, k⟩ ∈ workers ∨ .written serial i level k ∈ log
  began : ∀ level, run.level = some level → ∀ k, ⟨serial, i, k⟩ ∈ workers → .start serial i level k ∈ log

def Unseen (log : List Event) (serial : Nat) : Prop :=
  ∀ i l, .publish serial i l ∉ log ∧ ∀ k, .start serial i l k ∉ log

def BatchRecord (log : List Event) (workers : List Worker) (loop : Loop) (b : Batch) : Prop :=
  if b.started then ∀ i run, b.runs[i]? = some run → RunRecord log workers loop b.serial i run else Unseen log b.serial

structure Record (s : State) : Prop where
  each : Each Fits s.log
  same : ∀ serial works works', .queued serial works ∈ s.log → .queued serial works' ∈ s.log → works = works'
  queued : ∀ serial works, .queued serial works ∈ s.log → serial < s.nextSerial ∧
    ((∃ b ∈ s.batches, b.serial = serial) ∨ Finished s.log serial works)
  batches : ∀ b ∈ s.batches, .queued b.serial (worksOf b) ∈ s.log
  order : (s.batches.map Batch.serial).Pairwise (· < ·)
  later : ∀ serial, s.nextSerial ≤ serial → Unseen s.log serial
  records : ∀ b ∈ s.batches, BatchRecord s.log s.workers s.loop b

-- Events that are not a run's own leave its record as it was.
theorem RunRecord.later {log log' : List Event} {workers workers' : List Worker} {loop loop' : Loop} {serial i : Nat} {run : Run}
    (record : RunRecord log workers loop serial i run) (grows : ∀ e ∈ log, e ∈ log')
    (publish : ∀ l, .publish serial i l ∈ log' → .publish serial i l ∈ log)
    (start : ∀ l k, .start serial i l k ∈ log' → .start serial i l k ∈ log)
    (wrote : ∀ level, run.level = some level → ∀ k, ⟨serial, i, k⟩ ∈ workers → ⟨serial, i, k⟩ ∈ workers' ∨
      .written serial i level k ∈ log')
    (began : ∀ k, ⟨serial, i, k⟩ ∈ workers' → ⟨serial, i, k⟩ ∈ workers)
    (count : enqueued loop' i run.inFlight = enqueued loop i run.inFlight) :
    RunRecord log' workers' loop' serial i run := by
  refine ⟨fun l under past some_ => grows _ (record.published l under past some_), fun l mem => record.fresh l (publish l mem),
    fun l k mem => by rw [count]; exact record.starts l k (start l k mem), fun level live k less => ?_,
    fun level live k mem => grows _ (record.began level live k (began k mem))⟩
  rw [count] at less
  rcases record.wrote level live k less with working | done
  · exact wrote level live k working
  · exact Or.inr (grows _ done)

theorem Unseen.later {log log' : List Event} {serial : Nat} (unseen : Unseen log serial)
    (publish : ∀ i l, .publish serial i l ∈ log' → .publish serial i l ∈ log)
    (start : ∀ i l k, .start serial i l k ∈ log' → .start serial i l k ∈ log) : Unseen log' serial :=
  fun i l => ⟨fun mem => (unseen i l).1 (publish i l mem), fun k mem => (unseen i l).2 k (start i l k mem)⟩

theorem Finished.later {log log' : List Event} {serial : Nat} {works : List TreeWork} (finished : Finished log serial works)
    (grows : ∀ e ∈ log, e ∈ log') : Finished log' serial works :=
  fun i w at_ l under some_ => grows _ (finished i w at_ l under some_)

theorem workAt {b : Batch} {i : Nat} {run : Run} (at_ : b.runs[i]? = some run) : (worksOf b)[i]? = some run.work := by
  rw [worksOf, List.getElem?_map, at_]
  rfl

theorem runAt {b : Batch} {i : Nat} {w : TreeWork} (at_ : (worksOf b)[i]? = some w) : ∃ run, b.runs[i]? = some run ∧
    run.work = w := by
  rw [worksOf, List.getElem?_map] at at_
  exact Option.map_eq_some_iff.mp at_

/-! ## One run of the front batch moves -/

def Own (serial i : Nat) : Event → Prop
  | .start serial' j _ _ => serial' = serial ∧ j = i
  | .written serial' j _ _ => serial' = serial ∧ j = i
  | .publish serial' j _ => serial' = serial ∧ j = i
  | _ => False

theorem ownEvent {log more : List Event} {serial i : Nat} (own : ∀ e ∈ more, Own serial i e) {e : Event}
    (mem : e ∈ log ++ more) (other : ¬ Own serial i e) : e ∈ log :=
  (List.mem_append.mp mem).resolve_right fun new => other (own e new)

section
variable {s s' : State} {b b' : Batch} {rest : List Batch} {i : Nat} {run run' : Run} {more : List Event}

theorem Record.front (record : Record s) (front : s.batches = b :: rest) {serial : Nat} {works : List TreeWork}
    (mem : .queued serial works ∈ s.log) (less : serial < b.serial) : Finished s.log serial works := by
  rcases (record.queued serial works mem).2 with ⟨b', inside, rfl⟩ | finished
  · have order := record.order
    rw [front, List.map_cons, List.pairwise_cons] at order
    rw [front] at inside
    rcases List.mem_cons.mp inside with rfl | inside
    · omega
    · have after := order.1 b'.serial (List.mem_map_of_mem inside)
      omega
  · exact finished

theorem Record.runs (record : Record s) (front : s.batches = b :: rest) (started : b.started = true)
    (at_ : b.runs[i]? = some run) : RunRecord s.log s.workers s.loop b.serial i run := by
  have own := record.records b (by rw [front]; exact List.mem_cons_self)
  rw [BatchRecord, if_pos started] at own
  exact own i run at_

theorem Record.works (record : Record s) (front : s.batches = b :: rest) {works : List TreeWork} {w : TreeWork}
    (mem : .queued b.serial works ∈ s.log) (place : works[i]? = some w) (at_ : b.runs[i]? = some run) : w = run.work := by
  have same := record.same _ _ _ mem (record.batches b (by rw [front]; exact List.mem_cons_self))
  rw [same, workAt at_] at place
  exact (Option.some.inj place).symm

theorem Record.set (more : List Event) (record : Record s) (front : s.batches = b :: rest) (started : b.started = true)
    (fresh : ∀ b ∈ rest, b.started = false) (at_ : b.runs[i]? = some run) (batches : s'.batches = b' :: rest)
    (runs : b'.runs = b.runs.set i run') (serial : b'.serial = b.serial) (started' : b'.started = b.started)
    (work : run'.work = run.work) (log : s'.log = s.log ++ more) (own : ∀ e ∈ more, Own b.serial i e)
    (next : s'.nextSerial = s.nextSerial) (each : Each Fits s'.log)
    (moved : RunRecord s'.log s'.workers s'.loop b.serial i run')
    (workers : ∀ j k, j ≠ i → (⟨b.serial, j, k⟩ ∈ s'.workers ↔ ⟨b.serial, j, k⟩ ∈ s.workers))
    (count : ∀ j n, j ≠ i → enqueued s'.loop j n = enqueued s.loop j n) : Record s' := by
  have inFront : b ∈ s.batches := by rw [front]; exact List.mem_cons_self
  have grows : ∀ e ∈ s.log, e ∈ s'.log := fun e mem => by rw [log]; exact List.mem_append_left _ mem
  have old {e : Event} (mem : e ∈ s'.log) (other : ¬ Own b.serial i e) : e ∈ s.log := by
    rw [log] at mem
    exact ownEvent own mem other
  have sameWorks : worksOf b' = worksOf b := by
    refine List.ext_getElem? fun j => ?_
    rw [worksOf, worksOf, runs, List.getElem?_map, List.getElem?_map]
    by_cases here : i = j
    · subst here
      rw [List.getElem?_set_self (List.getElem?_eq_some_iff.mp at_).1, at_, Option.map_some, Option.map_some, work]
    · rw [List.getElem?_set_ne here]
  have bound := (record.queued _ _ (record.batches b inFront)).1
  refine ⟨each, fun n works works' mem mem' => record.same n works works' (old mem id) (old mem' id), fun n works mem => ?_,
    fun b'' mem => ?_, ?_, fun n most => ?_, fun b'' mem => ?_⟩
  · obtain ⟨less, kind⟩ := record.queued n works (old mem id)
    refine ⟨by rw [next]; exact less, kind.imp (fun ⟨c, inside, same⟩ => ?_) fun finished => finished.later grows⟩
    rw [front] at inside
    rw [batches]
    rcases List.mem_cons.mp inside with rfl | inside
    · exact ⟨b', List.mem_cons_self, serial.trans same⟩
    · exact ⟨c, List.mem_cons_of_mem _ inside, same⟩
  · rw [batches] at mem
    rcases List.mem_cons.mp mem with rfl | mem
    · rw [serial, sameWorks]
      exact grows _ (record.batches b inFront)
    · exact grows _ (record.batches b'' (by rw [front]; exact List.mem_cons_of_mem _ mem))
  · have order := record.order
    rw [front] at order
    rw [batches]
    simpa only [List.map_cons, serial] using order
  · rw [next] at most
    refine (record.later n most).later (fun j l mem => old mem fun both => ?_) fun j l k mem => old mem fun both => ?_
    · have same := both.1
      omega
    · have same := both.1
      omega
  · rw [batches] at mem
    rcases List.mem_cons.mp mem with rfl | mem
    · rw [BatchRecord, started', if_pos started]
      intro j r there_
      rw [runs] at there_
      rw [serial]
      by_cases here : i = j
      · subst here
        rw [List.getElem?_set_self (List.getElem?_eq_some_iff.mp at_).1] at there_
        cases there_
        exact moved
      · rw [List.getElem?_set_ne here] at there_
        have other : j ≠ i := fun same => here same.symm
        exact (record.runs front started there_).later grows (fun l mem => old mem fun both => other both.2)
          (fun l k mem => old mem fun both => other both.2)
          (fun _ _ k working => Or.inl ((workers j k other).mpr working)) (fun k => (workers j k other).mp) (count j _ other)
    · have unseen := record.records b'' (by rw [front]; exact List.mem_cons_of_mem _ mem)
      have apart : b''.serial ≠ b.serial := by
        have order := record.order
        rw [front, List.map_cons, List.pairwise_cons] at order
        have after := order.1 b''.serial (List.mem_map_of_mem mem)
        omega
      rw [BatchRecord, fresh b'' mem, if_neg Bool.false_ne_true] at unseen ⊢
      exact unseen.later (fun j l mem => old mem fun both => apart both.1) fun j l k mem => old mem fun both => apart both.1

-- A move of the loop alone.
theorem Record.loops (record : Record s) (log : s'.log = s.log) (batches : s'.batches = s.batches)
    (next : s'.nextSerial = s.nextSerial) (workers : s'.workers = s.workers)
    (count : ∀ b ∈ s.batches, b.started = true → ∀ i run, b.runs[i]? = some run →
      enqueued s'.loop i run.inFlight = enqueued s.loop i run.inFlight) : Record s' := by
  refine ⟨by rw [log]; exact record.each, by rw [log]; exact record.same, by rw [log, next, batches]; exact record.queued,
    by rw [log, batches]; exact record.batches, by rw [batches]; exact record.order, by rw [log, next]; exact record.later,
    fun b mem => ?_⟩
  rw [batches] at mem
  have own := record.records b mem
  unfold BatchRecord at own ⊢
  rw [log, workers]
  split
  · rename_i started
    rw [if_pos started] at own
    intro i run at_
    exact (own i run at_).later (fun _ mem => mem) (fun _ mem => mem) (fun _ _ mem => mem)
      (fun _ _ _ working => Or.inl working) (fun _ mem => mem) (count b mem started i run at_)
  · rename_i fresh
    rw [if_neg fresh] at own
    exact own

theorem publishEach (record : Record s) (front : s.batches = b :: rest) (started : b.started = true) (right : Running s b)
    (at_ : b.runs[i]? = some run) {level : Nat} (loop : s.loop = .sweep i) (live : run.level = some level)
    (complete : Complete run) : Each Fits (if 0 < run.inFlight then s.log ++ [.publish b.serial i level] else s.log) := by
  split
  · rename_i some_
    have own := record.runs front started at_
    refine eachSnoc record.each ⟨fun mem => ?_, fun works w mem place k less => ?_⟩
    · exact absurd (own.fresh level mem level live) (Nat.lt_irrefl _)
    · obtain rfl := record.works front mem place at_
      have settled := right.settled at_ live loop complete
      have work := right.runs i run at_
      unfold RunRight at work
      rw [live] at work
      rcases work with ⟨_, none_, _⟩ | work
      · omega
      · have all := work.inFlight
        rcases own.wrote level live k (by rw [loop]; show k < run.inFlight; omega) with working | written
        · exact absurd rfl (settled.owners _ working)
        · exact written
  · exact record.each

-- A level that has been left is published, unless it has no nodes.
theorem publishRecord (record : Record s) (front : s.batches = b :: rest) (started : b.started = true)
    (right : Running s b) (at_ : b.runs[i]? = some run) {level : Nat} (loop : s.loop = .sweep i) (live : run.level = some level)
    (complete : Complete run) (run' : Run) (loop' : Loop) (work : run'.work = run.work)
    (past : ∀ l, level ≤ l → Past run' l) (between : ∀ l, Past run' l → l < level → run.work.nodes l = [])
    (begun : ∀ l, run'.level = some l → enqueued loop' i run'.inFlight = 0) :
    RunRecord (if 0 < run.inFlight then s.log ++ [.publish b.serial i level] else s.log) s.workers loop' b.serial i run' := by
  have own := record.runs front started at_
  have settled := right.settled at_ live loop complete
  have work' := right.runs i run at_
  unfold RunRight at work'
  rw [live] at work'
  have grows : ∀ e ∈ s.log, e ∈ if 0 < run.inFlight then s.log ++ [.publish b.serial i level] else s.log := by
    intro e mem
    split
    · exact List.mem_append_left _ mem
    · exact mem
  have left (l : Nat) (was : Past run l) : Past run' l := past l (Nat.le_of_lt (was level live))
  refine ⟨fun l under passed some_ => ?_, fun l mem => ?_, fun l k mem => ?_, fun l live' k less => ?_,
    fun l live' k mem => absurd rfl (settled.owners _ mem)⟩
  · rw [work] at some_
    rcases Nat.lt_trichotomy l level with less | rfl | more
    · exact absurd (between l passed less) some_
    · rcases work' with ⟨five, _⟩ | work'
      · omega
      · rw [if_pos work'.some_]
        exact List.mem_append_right _ (List.mem_singleton_self _)
    · refine grows _ (own.published l under (fun level' live' => ?_) some_)
      rw [live] at live'
      cases live'
      exact more
  · split at mem
    · rcases List.mem_append.mp mem with mem | mem
      · exact left l (own.fresh l mem)
      · cases List.mem_singleton.mp mem
        exact past level (Nat.le_refl _)
    · exact left l (own.fresh l mem)
  · have old : .start b.serial i l k ∈ s.log := by
      split at mem
      · rcases List.mem_append.mp mem with mem | mem
        · exact mem
        · cases List.mem_singleton.mp mem
      · exact mem
    rcases own.starts l k old with was | ⟨live', _⟩
    · exact Or.inl (left l was)
    · rw [live] at live'
      cases live'
      exact Or.inl (past level (Nat.le_refl _))
  · rw [begun l live'] at less
    omega

end

/-! ## Batches come and go -/

theorem frontRecord {s : State} {batches : List Batch} (record : Record { s with batches := batches })
    (idle : ∀ i n, enqueued s.loop i n = n)
    (quiet : ∀ b rest, batches = b :: rest → b.started = false → s.workers = []) : Record (frontBatch s batches) := by
  cases batches with
  | nil =>
    have grows : ∀ e ∈ s.log, e ∈ s.log ++ [Event.done] := fun e mem => List.mem_append_left _ mem
    have old {e : Event} (mem : e ∈ s.log ++ [Event.done]) (other : e ≠ .done) : e ∈ s.log :=
      (List.mem_append.mp mem).resolve_right fun last => other (List.mem_singleton.mp last)
    have finished (serial : Nat) (works : List TreeWork) (mem : .queued serial works ∈ s.log) :
        Finished s.log serial works := by
      rcases (record.queued serial works mem).2 with ⟨_, none_, _⟩ | finished
      · cases none_
      · exact finished
    refine ⟨eachSnoc record.each finished, fun serial works works' mem mem' =>
      record.same serial works works' (old mem (by simp)) (old mem' (by simp)), fun serial works mem => ?_,
      fun _ mem => (nomatch mem), .nil, fun serial most => ?_, fun _ mem => (nomatch mem)⟩
    · have before := old mem (by simp)
      exact ⟨(record.queued serial works before).1, Or.inr ((finished serial works before).later grows)⟩
    · exact (record.later serial most).later (fun i l mem => old mem (by simp)) fun i l k mem => old mem (by simp)
  | cons b rest =>
    unfold frontBatch
    dsimp only
    split
    · exact record.loops rfl rfl rfl rfl fun _ _ _ i run _ => (idle i run.inFlight).symm
    · rename_i fresh
      have works : worksOf (startBatch b) = worksOf b := by
        unfold worksOf startBatch
        rw [List.map_map]
        rfl
      refine ⟨record.each, record.same, fun serial own mem => ?_, fun b' mem => ?_, ?_, record.later, fun b' mem => ?_⟩
      · obtain ⟨less, kind⟩ := record.queued serial own mem
        refine ⟨less, kind.imp_left fun ⟨c, inside, same⟩ => ?_⟩
        rcases List.mem_cons.mp inside with rfl | inside
        · exact ⟨startBatch c, List.mem_cons_self, same⟩
        · exact ⟨c, List.mem_cons_of_mem _ inside, same⟩
      · rcases List.mem_cons.mp mem with rfl | mem
        · rw [works]
          exact record.batches b List.mem_cons_self
        · exact record.batches b' (List.mem_cons_of_mem _ mem)
      · exact record.order
      · rcases List.mem_cons.mp mem with rfl | mem
        · have unseen := record.records b List.mem_cons_self
          rw [BatchRecord, if_neg fresh] at unseen
          rw [BatchRecord, if_pos (show (startBatch b).started = true from rfl)]
          intro i run at_
          unfold startBatch at at_
          dsimp only at at_
          rw [List.getElem?_map] at at_
          obtain ⟨old, _, rfl⟩ := Option.map_eq_some_iff.mp at_
          refine ⟨fun l under past => ?_, fun l published => absurd published (unseen i l).1,
            fun l k started => absurd started ((unseen i l).2 k), fun level live k less => ?_, fun level live k working => ?_⟩
          · have five := past 5 rfl
            omega
          · exact absurd less (Nat.not_lt_zero k)
          · rw [show _ = s.workers from rfl, quiet b rest rfl (Bool.eq_false_of_not_eq_true fresh)] at working
            cases working
        · have own := record.records b' (List.mem_cons_of_mem _ mem)
          unfold BatchRecord at own ⊢
          split
          · rename_i started
            rw [if_pos started] at own
            intro i run at_
            exact (own i run at_).later (fun _ mem => mem) (fun _ mem => mem) (fun _ _ mem => mem)
              (fun _ _ _ working => Or.inl working) (fun _ mem => mem) (idle i run.inFlight).symm
          · rename_i fresh'
            rw [if_neg fresh'] at own
            exact own

-- A batch that leaves has published every level of its trees.
theorem popRecord {s : State} {b : Batch} {rest : List Batch} (record : Record s) (front : s.batches = b :: rest)
    (started : b.started = true) (right : Running s b) (none_ : b.active = 0) : Record { s with batches := rest } := by
  have order := record.order
  rw [front, List.map_cons, List.pairwise_cons] at order
  have member {c : Batch} (inside : c ∈ rest) : c ∈ s.batches := by rw [front]; exact List.mem_cons_of_mem _ inside
  refine ⟨record.each, record.same, fun serial works mem => ?_, fun c inside => record.batches c (member inside), order.2,
    record.later, fun c inside => record.records c (member inside)⟩
  obtain ⟨less, kind⟩ := record.queued serial works mem
  refine ⟨less, ?_⟩
  rcases kind with ⟨c, inside, rfl⟩ | finished
  · rw [front] at inside
    rcases List.mem_cons.mp inside with rfl | inside
    · refine Or.inr fun i w at_ l under some_ => ?_
      rw [record.same _ _ _ mem (record.batches c (by rw [front]; exact List.mem_cons_self))] at at_
      obtain ⟨run, place, rfl⟩ := runAt at_
      have all := right.active
      rw [none_] at all
      have gone := Option.not_isSome_iff_eq_none.mp (List.countP_eq_zero.mp all.symm run (List.mem_of_getElem? place))
      refine (record.runs front started place).published l under (fun level live => ?_) some_
      rw [gone] at live
      cases live
    · exact Or.inl ⟨c, inside, rfl⟩
  · exact Or.inr finished

theorem turnRecord {s s' : State} {b : Batch} {rest : List Batch} (record : Record s) (front : s.batches = b :: rest)
    (started : b.started = true) (right : Running s b) (fresh : ∀ b ∈ rest, b.started = false)
    (turned : Turned s b rest s') : Record s' := by
  cases turned with
  | skip loop => exact record.loops rfl rfl rfl rfl fun _ _ _ _ _ _ => by rw [loop]; rfl
  | pause loop => exact record.loops rfl rfl rfl rfl fun _ _ _ _ _ _ => by rw [loop]; rfl
  | pop loop _ none_ =>
    refine frontRecord (popRecord record front started right none_) (fun i n => by rw [loop]; rfl) fun _ _ _ _ => ?_
    exact (right.retired none_).1
  | @retire i run level registry log loop at_ published last =>
    have each := publishEach record front started right at_ loop published.live published.complete
    have moved := publishRecord record front started right at_ loop published.live published.complete
      { run with level := none, inFlight := 0, completed := 0 } (.sweep (i + 1)) rfl
      (fun _ _ _ none_ => nomatch none_) (fun l _ less => descendNone last l less) fun _ none_ => nomatch none_
    rw [← published.logged] at each moved
    refine Record.set (if 0 < run.inFlight then [.publish b.serial i level] else []) record front started fresh at_
      rfl rfl rfl rfl rfl ?_ (fun e mem => ?_) rfl each moved
      (fun _ _ _ => Iff.rfl) fun _ _ _ => by rw [loop]; rfl
    · show log = _
      rw [published.logged]
      split
      · rfl
      · rw [List.append_nil]
    · split at mem
      · rw [List.mem_singleton.mp mem]
        exact ⟨rfl, rfl⟩
      · cases mem
  | @lower i run level registry log next loop at_ published more =>
    obtain ⟨less, _, between⟩ := descendBelow more
    have each := publishEach record front started right at_ loop published.live published.complete
    have moved := publishRecord record front started right at_ loop published.live published.complete
      { run with level := some next, inFlight := (run.work.nodes next).length, completed := 0 } (.enqueue i 0) rfl
        (fun l most level' live => by cases live; omega)
      (fun l past less' => between l (past next rfl) less') fun _ _ => if_pos rfl
    rw [← published.logged] at each moved
    refine Record.set (if 0 < run.inFlight then [.publish b.serial i level] else []) record front started fresh at_
      rfl rfl rfl rfl rfl ?_ (fun e mem => ?_) rfl each moved
      (fun _ _ _ => Iff.rfl) fun j n other => by rw [loop]; exact if_neg other.symm
    · show log = _
      rw [published.logged]
      split
      · rfl
      · rw [List.append_nil]
    · split at mem
      · rw [List.mem_singleton.mp mem]
        exact ⟨rfl, rfl⟩
      · cases mem
  | @last i k run level loop at_ live past =>
    refine record.loops rfl rfl rfl rfl fun c mem on j r there_ => ?_
    rw [front] at mem
    rcases List.mem_cons.mp mem with rfl | mem
    · rw [loop]
      dsimp only [enqueued]
      split
      · rename_i same
        subst same
        rw [at_] at there_
        cases there_
        exact (right.allEnqueued loop at_ live past).symm
      · rfl
    · rw [fresh c mem] at on
      cases on
  | @start i k run level node info loop at_ live here read =>
    have own := record.runs front started at_
    have bound := right.loop
    unfold LoopRight at bound
    rw [loop] at bound
    obtain ⟨r, l, there_, here', inside, _⟩ := bound
    rw [at_] at there_
    cases there_
    rw [live] at here'
    cases here'
    have inFront := record.batches b (by rw [front]; exact List.mem_cons_self)
    have counted (n : Nat) : enqueued s.loop i n = k := by
      rw [loop]
      exact if_pos rfl
    have starts : Starts s.log b.serial i level k := by
      refine ⟨fun mem => ?_, fun works w mem place l more under some_ => ?_, fun serial' works mem less =>
        record.front front mem less, ⟨worksOf b, run.work, node, inFront, workAt at_, here⟩⟩
      · rcases own.starts level k mem with past | ⟨_, less⟩
        · exact absurd (past level live) (Nat.lt_irrefl _)
        · rw [counted] at less
          omega
      · obtain rfl := record.works front mem place at_
        refine own.published l under (fun level' live' => ?_) some_
        rw [live] at live'
        cases live'
        exact more
    refine Record.set _ record front started fresh at_ rfl rfl rfl rfl rfl rfl (fun e mem => ?_) rfl
      (eachSnoc record.each starts) ?_
      (fun j n other => ?_) fun j n other => ?_
    · rw [List.mem_singleton.mp mem]
      exact ⟨rfl, rfl⟩
    · have grows : ∀ e ∈ s.log, e ∈ s.log ++ [.start b.serial i level k] := fun e mem => List.mem_append_left _ mem
      refine ⟨fun l under past some_ => grows _ (own.published l under past some_), fun l mem => ?_, fun l k' mem => ?_,
        fun level' live' k' less => ?_, fun level' live' k' mem => ?_⟩
      · rcases List.mem_append.mp mem with mem | mem
        · exact own.fresh l mem
        · cases List.mem_singleton.mp mem
      · show _ ∨ _ ∧ k' < enqueued (.enqueue i (k + 1)) i run.inFlight
        dsimp only [enqueued]
        rw [if_pos rfl]
        rcases List.mem_append.mp mem with mem | mem
        · refine (own.starts l k' mem).imp_right fun both => ⟨both.1, ?_⟩
          have less := both.2
          rw [counted] at less
          omega
        · cases List.mem_singleton.mp mem
          exact Or.inr ⟨live, Nat.lt_succ_self _⟩
      · dsimp only [enqueued] at less
        rw [if_pos rfl] at less
        rcases Nat.lt_succ_iff_lt_or_eq.mp less with less | rfl
        · refine (own.wrote level' live' k' ?_).imp (fun mem => List.mem_append_left _ mem) fun mem => grows _ mem
          rw [counted]
          exact less
        · exact Or.inl (List.mem_append_right _ (List.mem_singleton_self _))
      · rcases List.mem_append.mp mem with mem | mem
        · exact grows _ (own.began level' live' k' mem)
        · cases List.mem_singleton.mp mem
          have same : level' = level := Option.some.inj (live'.symm.trans live)
          rw [same]
          exact List.mem_append_right _ (List.mem_singleton_self _)
    · show _ ∈ s.workers ++ _ ↔ _
      rw [List.mem_append, List.mem_singleton]
      refine ⟨fun mem => mem.resolve_right fun same => other ?_, Or.inl⟩
      cases same
      rfl
    · rw [loop]
      dsimp only [enqueued]
      rw [if_neg other.symm, if_neg other.symm]

theorem finishRecord {s s' : State} {w : Worker} {g : Generated} (record : Record s) (control : Control s)
    (mem : w ∈ s.workers) (done : finish s w g = some s') : Record s' := by
  obtain ⟨b, rest, front, started, right, fresh⟩ := control.front mem
  have owner := right.owners w mem
  obtain ⟨run, level, at_, live, inside, _, with_⟩ := withRunSome front owner
    (fun run => { run with generated := Function.update run.generated w.node g })
  have serial := owner.1
  have own := record.runs front started at_
  have levels : levelOf s w.tree = level := by
    rw [levelOf, runOf, front]
    simp only [List.head?_cons, Option.bind_some, at_, live, Option.getD_some]
  unfold finish at done
  rw [with_, Option.map_some, levels] at done
  cases done
  have self : (⟨b.serial, w.tree, w.node⟩ : Worker) = w := by rw [← serial]
  have began : .start w.serial w.tree level w.node ∈ s.log := by
    rw [serial]
    exact own.began level live w.node (by rw [self]; exact mem)
  refine Record.set _ record front started fresh at_ rfl rfl rfl rfl rfl rfl (fun e there_ => ?_) rfl
    (eachSnoc record.each began) ?_
    (fun j k other => ?_) fun _ _ _ => rfl
  · rw [List.mem_singleton.mp there_]
    exact ⟨serial, rfl⟩
  · have grows : ∀ e ∈ s.log, e ∈ s.log ++ [.written w.serial w.tree level w.node] :=
      fun e there_ => List.mem_append_left _ there_
    have moved : RunRecord (s.log ++ [.written w.serial w.tree level w.node]) (s.workers.erase w) s.loop b.serial w.tree run := by
      refine own.later grows (fun l there_ => ?_) (fun l k there_ => ?_) (fun level' live' k working => ?_)
        (fun k there_ => List.mem_of_mem_erase there_) rfl
      · exact (List.mem_append.mp there_).resolve_right fun last => by cases List.mem_singleton.mp last
      · exact (List.mem_append.mp there_).resolve_right fun last => by cases List.mem_singleton.mp last
      · rw [live] at live'
        cases live'
        by_cases same : k = w.node
        · subst same
          refine Or.inr (List.mem_append_right _ ?_)
          rw [serial]
          exact List.mem_singleton_self _
        · refine Or.inl ((List.mem_erase_of_ne fun here => same ?_).mpr working)
          rw [← here]
    exact ⟨moved.published, moved.fresh, moved.starts, moved.wrote, moved.began⟩
  · refine List.mem_erase_of_ne fun here => other ?_
    rw [← here]

theorem countRecord {s s' : State} (record : Record s) (control : Control s) {serial i inFlight : Nat}
    (storage : s.storage = .counting serial i inFlight) (done : count s = some s') : Record s' := by
  obtain ⟨b, rest, front, started, right, fresh⟩ := control.counting storage
  obtain ⟨run, level, at_, live, inside, _, with_⟩ := withRunSome front (right.storage serial i inFlight storage)
    (fun run => { run with completed := run.completed + 1 })
  have own := record.runs front started at_
  unfold count at done
  rw [storage] at done
  dsimp only at done
  rw [with_, Option.map_some] at done
  cases done
  exact Record.set _ record front started fresh at_ rfl rfl rfl rfl rfl (List.append_nil _).symm (fun _ mem => (nomatch mem)) rfl
    record.each ⟨own.published, own.fresh, own.starts, own.wrote, own.began⟩ (fun _ _ _ => Iff.rfl) fun _ _ _ => rfl

theorem generateRecord {s : State} {max : Nat} {p : Pass} {sorted : List TreeWork} (record : Record s)
    (none_ : s.batches = []) : Record (generateLods s max p sorted) := by
  have news {e : Event} (mem : e ∈ (lodBatches sorted).mapIdx fun i works => Event.queued (s.nextSerial + i) works) :
      ∃ i works, (lodBatches sorted)[i]? = some works ∧ e = .queued (s.nextSerial + i) works := by
    obtain ⟨i, bound, rfl⟩ := List.mem_mapIdx.mp mem
    exact ⟨i, _, List.getElem?_eq_getElem bound, rfl⟩
  have olds {e : Event} (mem : e ∈ (generateLods s max p sorted).log) : e ∈ s.log ∨
      ∃ i works, (lodBatches sorted)[i]? = some works ∧ e = .queued (s.nextSerial + i) works :=
    (List.mem_append.mp mem).imp_right news
  have old {e : Event} (mem : e ∈ (generateLods s max p sorted).log) (other : ∀ serial works, e ≠ .queued serial works) :
      e ∈ s.log := (olds mem).resolve_right fun ⟨i, works, _, same⟩ => other _ _ same
  have grows : ∀ e ∈ s.log, e ∈ (generateLods s max p sorted).log := fun e mem => List.mem_append_left _ mem
  have here : (generateLods s max p sorted).batches =
      (lodBatches sorted).mapIdx fun i works => newBatch (s.nextSerial + i) works := by
    rw [generateLods, none_, List.nil_append]
  have batch {b : Batch} (mem : b ∈ (generateLods s max p sorted).batches) : ∃ i works,
      (lodBatches sorted)[i]? = some works ∧ b = newBatch (s.nextSerial + i) works := by
    rw [here] at mem
    obtain ⟨i, bound, rfl⟩ := List.mem_mapIdx.mp mem
    exact ⟨i, _, List.getElem?_eq_getElem bound, rfl⟩
  have published {serial i l : Nat} (mem : Event.publish serial i l ∈ (generateLods s max p sorted).log) :
      Event.publish serial i l ∈ s.log := by
    refine old mem fun _ _ same => ?_
    cases same
  have started {serial i l k : Nat} (mem : Event.start serial i l k ∈ (generateLods s max p sorted).log) :
      Event.start serial i l k ∈ s.log := by
    refine old mem fun _ _ same => ?_
    cases same
  refine ⟨eachAppend record.each fun before e after whole => ?_, fun serial works works' mem mem' => ?_,
    fun serial works mem => ?_, fun b mem => ?_, ?_, fun serial most => ?_, fun b mem => ?_⟩
  · have place : ((lodBatches sorted).mapIdx fun i works => Event.queued (s.nextSerial + i) works)[before.length]? = some e := by
      rw [whole, List.getElem?_append_right (Nat.le_refl _), Nat.sub_self]
      rfl
    rw [List.getElem?_mapIdx] at place
    obtain ⟨works, _, rfl⟩ := Option.map_eq_some_iff.mp place
    intro works' mem
    rcases List.mem_append.mp mem with mem | mem
    · have less := (record.queued _ _ mem).1
      omega
    · obtain ⟨j, bound, same⟩ := List.getElem_of_mem mem
      have place' : ((lodBatches sorted).mapIdx fun i works => Event.queued (s.nextSerial + i) works)[j]? =
          some (.queued (s.nextSerial + before.length) works') := by
        rw [whole, List.getElem?_append_left bound, List.getElem?_eq_getElem bound, same]
      rw [List.getElem?_mapIdx] at place'
      obtain ⟨_, _, same'⟩ := Option.map_eq_some_iff.mp place'
      have equal : s.nextSerial + j = s.nextSerial + before.length := by injection same'
      omega
  · rcases olds mem with before | ⟨i, own, at_, same⟩
    · rcases olds mem' with before' | ⟨j, _, _, same'⟩
      · exact record.same serial works works' before before'
      · have less := (record.queued _ _ before).1
        injection same' with equal
        omega
    · rcases olds mem' with before' | ⟨j, own', at', same'⟩
      · have less := (record.queued _ _ before').1
        injection same with equal
        omega
      · injection same with equal works_
        injection same' with equal' works_'
        obtain rfl : i = j := by omega
        rw [works_, works_']
        exact Option.some.inj (at_.symm.trans at')
  · rcases olds mem with before | ⟨i, own, at_, same⟩
    · obtain ⟨less, kind⟩ := record.queued serial works before
      refine ⟨Nat.lt_of_lt_of_le less (Nat.le_add_right _ _), Or.inr ?_⟩
      rcases kind with ⟨b, inside, _⟩ | finished
      · rw [none_] at inside
        cases inside
      · exact finished.later grows
    · injection same with equal works_
      have short := (List.getElem?_eq_some_iff.mp at_).1
      refine ⟨?_, Or.inl ⟨newBatch (s.nextSerial + i) own, ?_, equal.symm⟩⟩
      · show serial < s.nextSerial + (lodBatches sorted).length
        omega
      · rw [here]
        exact List.mem_of_getElem? (i := i) (by rw [List.getElem?_mapIdx, at_]; rfl)
  · obtain ⟨i, works, at_, rfl⟩ := batch mem
    have same : worksOf (newBatch (s.nextSerial + i) works) = works := by
      unfold worksOf newBatch
      dsimp only
      rw [List.map_map]
      exact List.map_id _
    rw [same]
    exact List.mem_append_right _ (List.mem_of_getElem? (i := i) (by rw [List.getElem?_mapIdx, at_]; rfl))
  · rw [here, List.pairwise_map, List.pairwise_iff_getElem]
    intro i j bound bound' less
    rw [List.getElem_mapIdx, List.getElem_mapIdx]
    exact Nat.add_lt_add_left less _
  · have least : s.nextSerial ≤ serial := Nat.le_trans (Nat.le_add_right _ _) most
    exact (record.later serial least).later (fun i l mem => published mem) fun i l k mem => started mem
  · obtain ⟨i, works, at_, rfl⟩ := batch mem
    rw [BatchRecord, if_neg (show ¬ (newBatch (s.nextSerial + i) works).started = true from Bool.false_ne_true)]
    exact (record.later (s.nextSerial + i) (Nat.le_add_right _ _)).later (fun i l mem => published mem)
      fun i l k mem => started mem

theorem performRecord {s s' : State} {a : Action} (record : Record s) (control : Control s) (can : allowed s a)
    (done : perform s a = some s') : Record s' := by
  cases a with
  | generate max sorted =>
    obtain ⟨p, _, rfl⟩ := Option.map_eq_some_iff.mp done
    exact generateRecord record can.1
  | change =>
    cases done
    exact record.loops rfl rfl rfl rfl fun _ _ _ _ _ _ => rfl
  | wake left =>
    cases done
    have same : Record { s with wakes := left, batches := s.batches } := ⟨record.each, record.same, record.queued,
      record.batches, record.order, record.later, record.records⟩
    refine frontRecord (s := { s with wakes := left }) same (fun i n => by rw [show _ = s.loop from rfl, can.1]; rfl)
      fun b rest front fresh => ?_
    cases control with
    | empty _ quiet => exact quiet.1
    | waiting _ _ quiet => exact quiet.1
    | running front' started =>
      rw [front'] at front
      cases front
      rw [fresh] at started
      cases started
  | turn =>
    cases control with
    | empty _ _ idle => exact absurd idle can
    | waiting _ _ _ idle => exact absurd idle can
    | running front started right later => exact turnRecord record front started right later (turnCases front done)
  | finish w g => exact finishRecord record control can.1 done
  | count =>
    obtain ⟨_, _, _, storage⟩ := can
    exact countRecord record control storage done
  | post =>
    cases done
    exact record.loops rfl rfl rfl rfl fun _ _ _ _ _ _ => rfl

/-! ## What was published stays -/

def Stored (s : State) : Prop :=
  ∀ serial works i w l, .queued serial works ∈ s.log → works[i]? = some w → .publish serial i l ∈ s.log →
    ∀ n ∈ w.nodes l, Holds s.lodComplete s.registry w.treeId n.storageName

theorem Stored.later {s s' : State} (stored : Stored s)
    (holds : ∀ {treeId id}, Holds s.lodComplete s.registry treeId id → Holds s'.lodComplete s'.registry treeId id)
    (old : ∀ serial works i l, .queued serial works ∈ s'.log → .publish serial i l ∈ s'.log →
      .queued serial works ∈ s.log ∧ .publish serial i l ∈ s.log) : Stored s' := by
  intro serial works i w l mem at_ published n inside
  obtain ⟨mem', published'⟩ := old serial works i l mem published
  exact holds (stored serial works i w l mem' at_ published' n inside)

theorem Stored.logged {s s' : State} (stored : Stored s) (same : s'.registry = s.registry)
    (target : s'.lodComplete = s.lodComplete) (more : List Event)
    (log : s'.log = s.log ++ more) (none_ : ∀ e ∈ more, ∀ serial works i l, e ≠ .queued serial works ∧ e ≠ .publish serial i l) :
    Stored s' := by
  refine stored.later (fun holds => by rw [same, target]; exact holds) fun serial works i l mem published => ?_
  rw [log] at mem published
  exact ⟨(List.mem_append.mp mem).resolve_right fun last => (none_ _ last serial works i l).1 rfl,
    (List.mem_append.mp published).resolve_right fun last => (none_ _ last serial works i l).2 rfl⟩

theorem withRunFrame {s s' : State} {serial i : Nat} {f : Run → Run} (done : withRun s serial i f = some s') :
    s'.registry = s.registry ∧ s'.lodComplete = s.lodComplete ∧ s'.log = s.log := by
  unfold withRun at done
  split at done
  · cases done
  · split at done
    · obtain ⟨_, _, rfl⟩ := Option.map_eq_some_iff.mp done
      exact ⟨rfl, rfl, rfl⟩
    · cases done

-- The level that is published is stored with it.
theorem publishStored {s s' : State} {b : Batch} {rest : List Batch} {i level : Nat} {run : Run} {registry : Registry}
    {log : List Event} (stored : Stored s) (record : Record s) (data : Data s) (front : s.batches = b :: rest)
    (right : Running s b) (at_ : b.runs[i]? = some run) (published : Published s b.serial i run level registry log)
    (registry' : s'.registry = registry) (target : s'.lodComplete = s.lodComplete) (log' : s'.log = log) :
    Stored s' := by
  obtain ⟨r', done, moved, known⟩ := publishes data front right at_ published.live
  cases done.symm.trans published.adjusted
  intro serial works j w l mem place there_ n inside
  rw [log', published.logged] at mem there_
  rw [registry', target]
  by_cases some_ : 0 < run.inFlight
  · rw [if_pos some_] at mem there_
    have mem' : .queued serial works ∈ s.log := by
      refine (List.mem_append.mp mem).resolve_right fun last => ?_
      cases List.mem_singleton.mp last
    rcases List.mem_append.mp there_ with old | last
    · exact holdsAdjusted moved (stored serial works j w l mem' place old n inside)
    · cases List.mem_singleton.mp last
      obtain rfl := record.works front mem' place at_
      have own := right.runs i run at_
      unfold RunRight at own
      rw [published.live] at own
      rcases own with ⟨_, none_, _⟩ | work
      · omega
      · exact known work.inside n inside
  · rw [if_neg some_] at mem there_
    exact holdsAdjusted moved (stored serial works j w l mem place there_ n inside)

theorem frontStored {s : State} {batches : List Batch} (stored : Stored s) : Stored (frontBatch s batches) := by
  cases batches with
  | nil => exact stored.logged rfl rfl [.done] rfl fun e mem _ _ _ _ => by rw [List.mem_singleton.mp mem]; simp
  | cons b rest => exact stored.logged rfl rfl [] (List.append_nil _).symm fun _ mem => (nomatch mem)

theorem performStored {s s' : State} {a : Action} (stored : Stored s) (record : Record s) (data : Data s)
    (control : Control s) (can : allowed s a) (done : perform s a = some s') : Stored s' := by
  have still {s' : State} (same : s'.registry = s.registry) (target : s'.lodComplete = s.lodComplete)
      (log : s'.log = s.log) : Stored s' :=
    stored.logged same target [] (by rw [log, List.append_nil]) fun _ mem => (nomatch mem)
  cases a with
  | generate max sorted =>
    obtain ⟨none_, le, p, gathered, _⟩ := can
    dsimp only [perform] at done
    rw [gathered] at done
    cases done
    obtain ⟨_, _, _, down⟩ := gatherRight data.good gathered
    refine stored.later (fun holds => (holds.later down.trees).higher le) fun serial works i l mem published => ?_
    have old : .publish serial i l ∈ s.log := by
      refine (List.mem_append.mp published).resolve_right fun new => ?_
      obtain ⟨j, _, same⟩ := List.mem_mapIdx.mp new
      cases same
    refine ⟨(List.mem_append.mp mem).resolve_right fun new => ?_, old⟩
    obtain ⟨j, _, same⟩ := List.mem_mapIdx.mp new
    injection same with serial_
    exact (record.later serial (by omega) i l).1 old
  | change =>
    cases done
    exact stored.later (holdsSpared can.1) fun _ _ _ _ mem published => ⟨mem, published⟩
  | wake left =>
    cases done
    exact frontStored (s := { s with wakes := left }) (still rfl rfl rfl)
  | turn =>
    cases control with
    | empty _ _ idle => exact absurd idle can
    | waiting _ _ _ idle => exact absurd idle can
    | running front started right =>
      cases turnCases front done with
      | skip => exact still rfl rfl rfl
      | pause => exact still rfl rfl rfl
      | pop => exact frontStored stored
      | retire _ at_ published => exact publishStored stored record data front right at_ published rfl rfl rfl
      | lower _ at_ published => exact publishStored stored record data front right at_ published rfl rfl rfl
      | last => exact still rfl rfl rfl
      | start =>
        exact stored.logged rfl rfl _ rfl fun e mem _ _ _ _ => by rw [List.mem_singleton.mp mem]; simp
  | finish w g =>
    obtain ⟨t, with_, rfl⟩ := Option.map_eq_some_iff.mp done
    refine stored.logged (withRunFrame with_).1 (withRunFrame with_).2.1 _ rfl fun e mem _ _ _ _ => ?_
    rw [List.mem_singleton.mp mem]
    simp
  | count =>
    dsimp only [perform] at done
    unfold count at done
    split at done
    · obtain ⟨t, with_, rfl⟩ := Option.map_eq_some_iff.mp done
      exact still (withRunFrame with_).1 (withRunFrame with_).2.1 (withRunFrame with_).2.2
    · cases done
  | post =>
    cases done
    exact still rfl rfl rfl

/-! ## Every run -/

def passes : System State Action where
  initial s := Good s.registry ∧ s.batches = [] ∧ s.workers = [] ∧ s.storage = .idle ∧ s.loop = .idle ∧ s.log = []
  step s a t := allowed s a ∧ perform s a = some t

structure Sound (s : State) : Prop where
  history : Each Fits s.log
  stored : Stored s
  reported : s.batches = [] → ∀ serial works, .queued serial works ∈ s.log → Finished s.log serial works
  goesOn : ∀ a, allowed s a → ∃ t, perform s a = some t
  neverStuck : s.batches ≠ [] → s.loop ≠ .idle ∨ 0 < s.wakes ∨ s.storage ≠ .idle ∨ s.workers ≠ []
  gathers : ∀ max t, s.registry.get s.root = some t → ∃ p parent, gather s max = some p ∧
    AllWorked ⟨max, s.lodComplete⟩ p.registry p.toLod ∧ (nodeMaxOf t 0 (rootEntry t).name < max →
      RootSettled ⟨max, s.lodComplete⟩ p.registry p.toLod s.root [parent] 0)

structure Invariant (s : State) : Prop where
  control : Control s
  data : Data s
  record : Record s
  stored : Stored s

theorem passesKeep : Inductive passes Invariant := by
  refine ⟨fun s start => ?_, fun s a t inv step => ?_⟩
  · obtain ⟨good, none_, quiet, storage, idle, log⟩ := start
    refine ⟨.empty none_ ⟨quiet, fun _ _ _ at_ => ?_⟩ idle, ⟨good, by rw [none_]; trivial⟩, ?_, fun _ _ _ _ _ mem => ?_⟩
    · rw [storage] at at_
      cases at_
    · refine ⟨by rw [log]; exact eachNil _, fun _ _ _ mem => ?_, fun _ _ mem => ?_, fun _ mem => ?_, ?_, fun _ _ i l => ?_,
        fun _ mem => ?_⟩
      · rw [log] at mem
        cases mem
      · rw [log] at mem
        cases mem
      · rw [none_] at mem
        cases mem
      · rw [none_]
        exact .nil
      · rw [log]
        exact ⟨List.not_mem_nil, fun _ => List.not_mem_nil⟩
      · rw [none_] at mem
        cases mem
    · rw [log] at mem
      cases mem
  · exact ⟨performControl inv.control step.1 step.2, performData inv.data inv.control step.1 step.2,
      performRecord inv.record inv.control step.1 step.2,
      performStored inv.stored inv.record inv.data inv.control step.1 step.2⟩

theorem passSound {s : State} (reach : Reachable passes s) : Sound s := by
  have inv := reachableInvariant passesKeep reach
  refine ⟨inv.record.each, inv.stored, fun none_ serial works mem => ?_, fun a can => performSome inv.data inv.control can,
    inv.control.moves, fun max t here => ?_⟩
  · rcases (inv.record.queued serial works mem).2 with ⟨b, inside, _⟩ | finished
    · rw [none_] at inside
      cases inside
    · exact finished
  · have nothing : AllWorked ⟨max, s.lodComplete⟩ s.registry [] := fun _ mem => (nomatch mem)
    obtain ⟨result, own⟩ := workItemsSome (p := ⟨s.registry, s.lodIds, []⟩) inv.data.good nothing here
      (Nat.lt_succ_self t.magnitude) (fakeParent t)
    obtain ⟨t', down⟩ := workItemsRight inv.data.good nothing own
    have same := down.here
    dsimp only at same
    rw [here] at same
    cases same
    exact ⟨result.1, result.2, by rw [gather, here]; dsimp only; rw [own]; rfl, down.worked, down.settled⟩

/-! ## Two passes, and a unit that comes in while the first is under way -/

def unit (i : Nat) : InputId := ⟨i, 0⟩
def valueOf (i : Nat) : Value := ⟨0, [⟨0, i, 1⟩], 1⟩
def leafOf (i first count minLod : Nat) : Collection := ⟨count, first, first + count - 1, minLod, [⟨unit i, 0, count⟩]⟩

-- A root over the leaves of two units of ten points, as the builder leaves it where a leaf takes ten.
def pairTree : Tree where
  id := 0
  magnitude := 0
  mortonMin := 0
  mortonMax := 8 ^ 5 - 1
  levels
    | 0 => ⟨[3], [0], [0], [empty]⟩
    | 1 => ⟨[0, 0], [0, 0], [0, 512], [leafOf 1 0 10 1, leafOf 2 (8 ^ 4) 10 1]⟩
    | _ => ⟨[], [], [], []⟩
  subTrees := []
  isDirty := true
  leavesCollapsed := false
  storageMap := ⟨fun id => if id = unit 1 then some (valueOf 1) else if id = unit 2 then some (valueOf 2) else none, []⟩

-- The root over it after a unit whose only point lies past the first target.
def rootTree : Tree where
  id := 1
  magnitude := 1
  mortonMin := 0
  mortonMax := 8 ^ 10 - 1
  levels
    | 0 | 1 | 2 => ⟨[1], [0], [0], [empty]⟩
    | 3 => ⟨[3], [0], [0], [empty]⟩
    | 4 => ⟨[1, 0], [0, 1], [0, 1], [empty, leafOf 3 (8 ^ 6) 1 0]⟩
    | _ => ⟨[], [], [], []⟩
  subTrees := [0]
  isDirty := true
  leavesCollapsed := false
  storageMap := ⟨fun id => if id = unit 3 then some (valueOf 3) else none, []⟩

def shown (t : Tree) : List (List (List Nat)) × List Collection :=
  ([[t.id, t.magnitude, t.mortonMin, t.mortonMax], t.subTrees] :: (List.range 5).map fun l =>
    [(t.levels l).nodes, (t.levels l).skips, (t.levels l).nodeIds], (List.range 5).flatMap fun l => (t.levels l).data)

def units : List TreeBuildRuns.Batch := [batchOf 1 (List.range 10), batchOf 2 ((List.range 10).map (8 ^ 4 + ·)), batchOf 3 [8 ^ 6]]

example : (insertAll (readFrom units) 10 (units.take 2)).map (fun w => w.registry.data.reduceOption.map shown) =
    some [shown pairTree] := by decide +kernel
example : (insertAll (readFrom units) 10 units).map (fun w => w.registry.data.reduceOption.map shown) =
    some [shown pairTree, shown rootTree] := by decide +kernel

theorem pairFormed : Formed pairTree :=
  ⟨by decide, by decide, by decide, by decide, rfl, rfl, by decide, rfl⟩

theorem rootFormed : Formed rootTree :=
  ⟨by decide, by decide, by decide, by decide, rfl, rfl, by decide, rfl⟩

def pairStart : State := ⟨⟨[some pairTree], 1⟩, 0, 2 ^ 63, 0, [], 0, [], .idle, .idle, 0, []⟩

theorem pairOnly {id : Nat} {t : Tree} (here : pairStart.registry.get id = some t) : id = 0 ∧ t = pairTree := by
  obtain rfl : id = 0 := Nat.lt_one_iff.mp (getInside here)
  exact ⟨rfl, (Option.some.inj here).symm⟩

theorem pairGood : Good pairStart.registry := by
  refine wiredGood ⟨rfl, fun here => ?_, fun here => ?_, fun here at_ => ?_, fun here _ at_ => ?_⟩ fun here => ?_ <;>
    obtain ⟨rfl, rfl⟩ := pairOnly here
  · rfl
  · exact pairFormed
  · cases at_
  · cases at_
  · exact freshPlain (by decide)

-- The tree loop has added the third unit.
def added (s : State) : State :=
  { s with registry := ⟨s.registry.data ++ [some rootTree], s.registry.currentId + 1⟩, root := 1 }

theorem addedStep {s : State} {t : Tree} (good : Good s.registry) (one : s.registry.data.length = 1)
    (here : s.registry.get 0 = some t) (magnitude : t.magnitude = 0) (least : t.mortonMin = 0) :
    passes.step s (.change (added s).registry (added s).root s.lodIds) (added s) := by
  have old {id : Nat} {u : Tree} (found : s.registry.get id = some u) : (added s).registry.get id = some u := by
    have inside := getInside found
    unfold Registry.get added at *
    rwa [List.getElem?_append_left inside]
  refine ⟨⟨fun found _ => ⟨_, old found, rfl, rfl, rfl, rfl, rfl⟩, fun {id u} found => ?_⟩, rfl⟩
  have inside := getInside found
  have two : (added s).registry.data.length = 2 := by
    unfold added
    rw [List.length_append, one]
    rfl
  by_cases first : id = 0
  · subst first
    rw [old here, Option.some.injEq] at found
    subst found
    obtain ⟨plain, shaped⟩ := good here
    exact ⟨plain, shaped.kept (.refl t) (fun own => ⟨_, own⟩) fun own => ⟨_, old own, .refl _⟩⟩
  · obtain rfl : id = 1 := by omega
    have own : (added s).registry.get 1 = some rootTree := by
      unfold Registry.get added
      rw [List.getElem?_append_right (Nat.le_of_eq one), one]
      rfl
    rw [own, Option.some.injEq] at found
    subst found
    refine ⟨freshPlain (by decide), formedShaped rootFormed fun {x sub} at_ => ?_⟩
    obtain ⟨rfl, rfl⟩ : x = 0 ∧ sub = 0 := by
      cases x with
      | zero => exact ⟨rfl, (Option.some.inj at_).symm⟩
      | succ x => cases at_
    refine ⟨t, old here, by rw [magnitude]; rfl, fun k i name index octant named => ?_⟩
    have places : ∀ k < 2, ∀ i < 8, childIndex rootTree 4 k i = some 0 → k = 0 ∧ i = 0 := by decide
    have inside := (List.getElem?_eq_some_iff.mp named).1
    obtain ⟨rfl, rfl⟩ := places k inside i octant index
    cases named
    exact least

def canTake (s : State) : Action → Bool
  | .generate .. | .change .. => false
  | .wake left => (match s.loop with | .idle => true | _ => false) && left < s.wakes
  | .turn => match s.loop with | .idle => false | _ => true
  | .finish w _ => s.workers.contains w && match s.storage with | .idle => true | _ => false
  | .count => match s.storage with | .counting .. => true | _ => false
  | .post => match s.storage with | .posting => true | _ => false

def follow : State → List Action → Option State
  | s, [] => some s
  | s, a :: rest => if canTake s a then (perform s a).bind fun t => follow t rest else none

theorem canTakeAllowed {s : State} {a : Action} (can : canTake s a = true) : allowed s a := by
  cases a with
  | generate => cases can
  | change => cases can
  | wake left =>
    simp only [canTake] at can
    split at can
    · rename_i idle
      exact ⟨idle, of_decide_eq_true can⟩
    · cases can
  | turn =>
    simp only [canTake] at can
    split at can
    · cases can
    · rename_i busy
      exact busy
  | finish w g =>
    simp only [canTake] at can
    split at can
    · rename_i idle
      exact ⟨List.contains_iff_mem.mp (by simpa using can), idle⟩
    · simp at can
  | count =>
    simp only [canTake] at can
    split at can
    · rename_i serial i inFlight counting
      exact ⟨serial, i, inFlight, counting⟩
    · cases can
  | post =>
    simp only [canTake] at can
    split at can
    · rename_i posting
      exact posting
    · cases can

theorem followReach {s t : State} {actions : List Action} (reach : Reachable passes s) (done : follow s actions = some t) :
    Reachable passes t := by
  induction actions generalizing s with
  | nil =>
    cases done
    exact reach
  | cons a rest ih =>
    unfold follow at done
    split at done
    · rename_i can
      obtain ⟨next, first, later⟩ := Option.bind_eq_some_iff.mp done
      exact ih (reachableStep reach ⟨canTakeAllowed can, first⟩) later
    · cases done

-- A pass begins with its trees as they were gathered, where that order will do.
def begun (max : Nat) (s : State) : Option State :=
  if s.batches.isEmpty && s.lodComplete ≤ max then
    (gather s max).bind fun p =>
      if p.toLod.Pairwise fun v w => v.magnitude ≤ w.magnitude then some (generateLods s max p p.toLod) else none
  else none

theorem begunReach {s t : State} {max : Nat} (reach : Reachable passes s) (done : begun max s = some t) :
    Reachable passes t := by
  unfold begun at done
  split at done
  · rename_i can
    obtain ⟨none_, higher⟩ := Bool.and_eq_true_iff.mp can
    obtain ⟨p, gathered, done⟩ := Option.bind_eq_some_iff.mp done
    split at done
    · rename_i order
      cases done
      have step : passes.step s (.generate max p.toLod) (generateLods s max p p.toLod) := by
        refine ⟨⟨List.isEmpty_iff.mp none_, of_decide_eq_true higher, p, gathered, .refl _, order⟩, ?_⟩
        rw [perform, gathered]
        rfl
      exact reachableStep reach step
    · cases done
  · cases done

def made : Generated := ⟨5, 1, 2, 0, [⟨0, 3, 64⟩]⟩
def level (serial : Nat) : List Action := [.wake 0, .turn, .turn, .turn, .turn, .finish ⟨serial, 0, 0⟩ made, .count, .post]
def last : List Action := [.wake 0, .turn, .turn]

def firstPass : Option State := (begun (8 ^ 6) pairStart).bind fun s => follow s ((level 0).take 3)
def secondPass (s : State) : Option State :=
  ((follow (added s) ((level 0).drop 3 ++ last)).bind (begun (8 ^ 10))).bind fun t =>
    follow t ((List.replicate 5 (level 1)).flatten ++ last)

theorem passOverPair : ∃ s, s.log.length = 22 ∧ s.batches = [] ∧ s.registry.data.length = 2 ∧ Sound s := by
  have ends : (firstPass.bind fun s => (secondPass s).map fun t => (((s.registry.get 0).map fun u => (u.magnitude, u.mortonMin)),
      s.registry.data.length, t.log.length, t.batches.isEmpty, t.registry.data.length)) =
      some (some (0, 0), 1, 22, true, 2) := by decide +kernel
  obtain ⟨s, first, ends⟩ := Option.bind_eq_some_iff.mp ends
  obtain ⟨t, second, counts⟩ := Option.map_eq_some_iff.mp ends
  simp only [Prod.mk.injEq] at counts
  obtain ⟨root, one, logged, none_, two⟩ := counts
  obtain ⟨u, here, shape⟩ := Option.map_eq_some_iff.mp root
  obtain ⟨magnitude, least⟩ := Prod.mk.injEq .. ▸ shape
  have start : Reachable passes pairStart := reachableInitial ⟨pairGood, rfl, rfl, rfl, rfl, rfl⟩
  obtain ⟨before, begins, front⟩ := Option.bind_eq_some_iff.mp first
  have midway := followReach (begunReach start begins) front
  have more := reachableStep midway
    (addedStep (reachableInvariant passesKeep midway).data.good one here magnitude least)
  obtain ⟨middle, rest, back⟩ := Option.bind_eq_some_iff.mp second
  obtain ⟨ended, done, again⟩ := Option.bind_eq_some_iff.mp rest
  exact ⟨t, logged, List.isEmpty_iff.mp none_, two, passSound (followReach (begunReach (followReach more done) again) back)⟩

end Dewfall.LodHistory
