import Dewfall.Converter.LodPass

/-! What the counters of a batch say in every order of the three loops: workers run for the front batch only, the
number in flight is the number enqueued, and a level that is complete has its wake coming. -/
namespace Dewfall.LodSchedule
open LodWork LodPass

/-! ## Counters -/

def ownedBy (serial i : Nat) (w : Worker) : Bool := w.serial = serial && w.tree = i

def countingAt (s : State) (i : Nat) : Nat :=
  match s.storage with
  | .counting _ j _ => if j = i then 1 else 0
  | _ => 0

def busy (s : State) (serial i : Nat) : Nat := s.workers.countP (ownedBy serial i) + countingAt s i

-- The loop has not come to a tree yet in the sweep it is in.
def Ahead (loop : Loop) (i : Nat) : Prop :=
  match loop with
  | .idle => False
  | .sweep j => j ≤ i
  | .enqueue j _ => j < i

def enqueued (loop : Loop) (i inFlight : Nat) : Nat :=
  match loop with
  | .enqueue j k => if j = i then k else inFlight
  | _ => inFlight

def Owed (s : State) (i : Nat) : Prop := 0 < s.wakes ∨ s.storage = .posting ∨ Ahead s.loop i

-- A level that is being worked on.
structure Busy (s : State) (serial i : Nat) (run : Run) (level : Nat) : Prop where
  inside : level < 5
  inFlight : run.inFlight = (run.work.nodes level).length
  some_ : 0 < run.inFlight
  counted : run.completed + busy s serial i = enqueued s.loop i run.inFlight
  owed : run.completed = run.inFlight → Owed s i

def RunRight (s : State) (serial i : Nat) (run : Run) : Prop :=
  match run.level with
  | none => run.inFlight = 0
  | some level => level = 5 ∧ run.inFlight = 0 ∧ Ahead s.loop i ∨ Busy s serial i run level

def LoopRight (s : State) (b : Batch) : Prop :=
  match s.loop with
  | .idle => 0 < b.active
  | .sweep i => i ≤ b.runs.length
  | .enqueue i k => ∃ run level, b.runs[i]? = some run ∧ run.level = some level ∧ level < 5 ∧ k ≤ run.inFlight

-- What a worker or a completion refers to.
def Live (b : Batch) (serial i : Nat) (P : Run → Nat → Prop) : Prop :=
  serial = b.serial ∧ ∃ run level, b.runs[i]? = some run ∧ run.level = some level ∧ level < 5 ∧ P run level

structure Running (s : State) (b : Batch) : Prop where
  loop : LoopRight s b
  owners : ∀ w ∈ s.workers, Live b w.serial w.tree fun run level => w.node < (run.work.nodes level).length
  storage : ∀ serial i inFlight, s.storage = .counting serial i inFlight →
    Live b serial i fun run _ => inFlight = run.inFlight
  active : b.active = b.runs.countP fun run : Run => run.level.isSome
  runs : ∀ i run, b.runs[i]? = some run → RunRight s b.serial i run

def Quiet (s : State) : Prop := s.workers = [] ∧ ∀ serial i inFlight, s.storage ≠ .counting serial i inFlight

inductive Control (s : State) : Prop where
  | empty (none_ : s.batches = []) (quiet : Quiet s) (idle : s.loop = .idle)
  | waiting {b rest} (front : s.batches = b :: rest) (fresh : b.started = false) (quiet : Quiet s) (idle : s.loop = .idle)
    (woken : 0 < s.wakes) (later : ∀ b ∈ rest, b.started = false)
  | running {b rest} (front : s.batches = b :: rest) (started : b.started = true) (right : Running s b)
    (later : ∀ b ∈ rest, b.started = false)

/-! ## The front batch -/

theorem frontRunning {s : State} {b : Batch} {rest : List Batch} (quiet : Quiet s) (fresh : b.started = false)
    (later : ∀ b ∈ rest, b.started = false) : Control (frontBatch s (b :: rest)) := by
  simp only [frontBatch, fresh, Bool.false_eq_true, if_false]
  refine .running rfl rfl ⟨Nat.zero_le _, fun w mem => ?_, fun serial i inFlight at_ => ?_, ?_, fun i run at_ => ?_⟩ later
  · rw [show _ = s.workers from rfl, quiet.1] at mem
    cases mem
  · exact absurd at_ (quiet.2 serial i inFlight)
  · unfold startBatch
    dsimp only
    rw [List.countP_map]
    exact (List.countP_eq_length.mpr fun _ _ => rfl).symm
  · unfold startBatch at at_
    dsimp only at at_
    rw [List.getElem?_map] at at_
    obtain ⟨old, _, rfl⟩ := Option.map_eq_some_iff.mp at_
    exact Or.inl ⟨rfl, rfl, Nat.zero_le i⟩

theorem frontControl {s : State} {batches : List Batch} (quiet : Quiet s)
    (fresh : ∀ b ∈ batches, b.started = false) : Control (frontBatch s batches) := by
  cases batches with
  | nil => exact .empty rfl quiet rfl
  | cons b rest => exact frontRunning quiet (fresh b List.mem_cons_self) fun b' mem => fresh b' (List.mem_cons_of_mem _ mem)

-- A batch whose trees have all retired has no one working for it.
theorem Running.retired {s : State} {b : Batch} (right : Running s b) (none_ : b.active = 0) : Quiet s := by
  have gone : ∀ (i : Nat) (run : Run), b.runs[i]? = some run → run.level = none := by
    intro i run at_
    have all := right.active
    rw [none_] at all
    have own := List.countP_eq_zero.mp all.symm run (List.mem_of_getElem? at_)
    exact Option.not_isSome_iff_eq_none.mp own
  refine ⟨List.eq_nil_iff_forall_not_mem.mpr fun w mem => ?_, fun serial i inFlight at_ => ?_⟩
  · obtain ⟨_, run, level, at_, live, _⟩ := right.owners w mem
    rw [gone _ run at_] at live
    cases live
  · obtain ⟨_, run, level, there_, live, _⟩ := right.storage serial i inFlight at_
    rw [gone _ run there_] at live
    cases live

theorem RunRight.later {s s' : State} {serial i : Nat} {run : Run} (right : RunRight s serial i run)
    (same : busy s' serial i = busy s serial i)
    (count : enqueued s'.loop i run.inFlight = enqueued s.loop i run.inFlight)
    (ahead : Ahead s.loop i → Ahead s'.loop i) (owed : Owed s i → Owed s' i) : RunRight s' serial i run := by
  unfold RunRight at right ⊢
  cases level : run.level with
  | none =>
    rw [level] at right
    exact right
  | some l =>
    rw [level] at right
    rcases right with ⟨five, none_, before⟩ | work
    · exact Or.inl ⟨five, none_, ahead before⟩
    · exact Or.inr ⟨work.inside, work.inFlight, work.some_, by rw [same, count]; exact work.counted,
        fun complete => owed (work.owed complete)⟩

theorem wakeControl {s : State} {left : Nat} (control : Control s) (idle : s.loop = .idle) :
    Control (frontBatch { s with wakes := left } s.batches) := by
  cases control with
  | empty none_ quiet =>
    rw [none_]
    exact frontControl quiet fun _ mem => (nomatch mem)
  | waiting front fresh quiet _ _ later =>
    rw [front]
    exact frontRunning quiet fresh later
  | @running b rest front started right later =>
    rw [front]
    simp only [frontBatch, started, if_true]
    refine .running rfl started ⟨Nat.zero_le _, right.owners, right.storage, right.active, fun i run at_ => ?_⟩ later
    refine (right.runs i run at_).later rfl ?_ (fun _ => Nat.zero_le i) fun _ => Or.inr (Or.inr (Nat.zero_le i))
    rw [idle]
    rfl

/-! ## A turn of the loop -/

section
variable {s s' : State} {b b' : Batch} {rest : List Batch} {i : Nat} {run run' : Run}

theorem Live.set {serial j : Nat} {P : Run → Nat → Prop} (live : Live b serial j P) (at_ : b.runs[i]? = some run)
    (runs : b'.runs = b.runs.set i run') (same : b'.serial = b.serial) (level : run'.level = run.level)
    (keeps : ∀ l, P run l → P run' l) : Live b' serial j P := by
  obtain ⟨own, r, l, there_, here, inside, holds⟩ := live
  have short : i < b.runs.length := (List.getElem?_eq_some_iff.mp at_).1
  refine ⟨own.trans same.symm, ?_⟩
  rw [runs]
  by_cases here' : i = j
  · subst here'
    rw [at_] at there_
    cases there_
    exact ⟨run', l, List.getElem?_set_self short, level.trans here, inside, keeps l holds⟩
  · exact ⟨r, l, by rw [List.getElem?_set_ne here', there_], here, inside, holds⟩

theorem Live.off {serial j : Nat} {P : Run → Nat → Prop} (live : Live b serial j P) (other : i ≠ j)
    (runs : b'.runs = b.runs.set i run') (same : b'.serial = b.serial) : Live b' serial j P := by
  obtain ⟨own, r, l, there_, here, inside, holds⟩ := live
  exact ⟨own.trans same.symm, r, l, by rw [runs, List.getElem?_set_ne other, there_], here, inside, holds⟩

theorem runsSet (at_ : b.runs[i]? = some run) (runs : b'.runs = b.runs.set i run') (same : b'.serial = b.serial)
    (own : RunRight s' b.serial i run')
    (others : ∀ j r, i ≠ j → b.runs[j]? = some r → RunRight s' b.serial j r) :
    ∀ j r, b'.runs[j]? = some r → RunRight s' b'.serial j r := by
  intro j r there_
  rw [runs] at there_
  rw [same]
  by_cases here : i = j
  · subst here
    rw [List.getElem?_set_self (List.getElem?_eq_some_iff.mp at_).1] at there_
    cases there_
    exact own
  · rw [List.getElem?_set_ne here] at there_
    exact others j r here there_

theorem activeSet (at_ : b.runs[i]? = some run) (own : run'.level.isSome = run.level.isSome)
    (active : b.active = b.runs.countP fun r : Run => r.level.isSome) :
    b.active = (b.runs.set i run').countP fun r : Run => r.level.isSome := by
  obtain ⟨short, there_⟩ := List.getElem?_eq_some_iff.mp at_
  rw [active, List.countP_set short, there_, own]
  have counted : run.level.isSome = true → 0 < b.runs.countP fun r : Run => r.level.isSome := fun some_ =>
    List.countP_pos_iff.mpr ⟨run, List.mem_of_getElem? at_, some_⟩
  split
  · rename_i some_
    have positive := counted some_
    omega
  · omega

theorem activeRetired (at_ : b.runs[i]? = some run) (some_ : run.level.isSome = true) (none_ : run'.level = none)
    (active : b.active = b.runs.countP fun r : Run => r.level.isSome) :
    b.active - 1 = (b.runs.set i run').countP fun r : Run => r.level.isSome := by
  obtain ⟨short, there_⟩ := List.getElem?_eq_some_iff.mp at_
  rw [active, List.countP_set short, there_, some_, none_]
  simp

-- A run that is between two levels has no one working for it.
structure Settled (s : State) (b : Batch) (i : Nat) : Prop where
  busy : busy s b.serial i = 0
  owners : ∀ w ∈ s.workers, i ≠ w.tree
  storage : ∀ serial j inFlight, s.storage = .counting serial j inFlight → i ≠ j

theorem Running.settled (right : Running s b) (at_ : b.runs[i]? = some run) {level : Nat} (live : run.level = some level)
    (sweep : s.loop = .sweep i) (complete : Complete run) : Settled s b i := by
  have own := right.runs i run at_
  unfold RunRight at own
  rw [live] at own
  have none_ : level = 5 ∨ busy s b.serial i = 0 := by
    rcases own with ⟨five, _⟩ | work
    · exact Or.inl five
    · have counted := work.counted
      have some_ := work.some_
      unfold Complete at complete
      rw [sweep] at counted
      dsimp only [enqueued] at counted
      exact Or.inr (by omega)
  have noOwner : ∀ w ∈ s.workers, i ≠ w.tree := by
    rintro w mem rfl
    obtain ⟨serial, r, l, there_, here, inside, _⟩ := right.owners w mem
    rw [at_] at there_
    cases there_
    rw [live] at here
    cases here
    rcases none_ with rfl | zero
    · omega
    · have positive : 0 < s.workers.countP (ownedBy b.serial w.tree) :=
        List.countP_pos_iff.mpr ⟨w, mem, by simp [ownedBy, serial]⟩
      unfold busy at zero
      omega
  have noCount : ∀ serial j inFlight, s.storage = .counting serial j inFlight → i ≠ j := by
    rintro serial j inFlight storage rfl
    obtain ⟨_, r, l, there_, here, inside, _⟩ := right.storage serial i inFlight storage
    rw [at_] at there_
    cases there_
    rw [live] at here
    cases here
    rcases none_ with rfl | zero
    · omega
    · unfold busy countingAt at zero
      rw [storage] at zero
      dsimp only at zero
      rw [if_pos rfl] at zero
      omega
  refine ⟨?_, noOwner, noCount⟩
  have first : s.workers.countP (ownedBy b.serial i) = 0 := by
    refine List.countP_eq_zero.mpr fun w mem owned => noOwner w mem ?_
    simp only [ownedBy, Bool.and_eq_true, decide_eq_true_eq] at owned
    exact owned.2.symm
  unfold busy countingAt
  rw [first]
  split
  · rename_i serial j inFlight storage
    rw [if_neg fun same => noCount serial j inFlight storage same.symm]
  · rfl

theorem Running.allEnqueued {k level : Nat} (right : Running s b) (loop : s.loop = .enqueue i k)
    (at_ : b.runs[i]? = some run) (live : run.level = some level) (past : (run.work.nodes level)[k]? = none) :
    k = run.inFlight := by
  have bound := right.loop
  unfold LoopRight at bound
  rw [loop] at bound
  obtain ⟨r, l, there_, here, _, most⟩ := bound
  rw [at_] at there_
  cases there_
  have own := right.runs i run at_
  unfold RunRight at own
  rw [live] at own
  have least := List.getElem?_eq_none_iff.mp past
  rcases own with ⟨_, none_, _⟩ | work
  · omega
  · have all := work.inFlight
    omega

theorem turnControl (front : s.batches = b :: rest) (started : b.started = true) (right : Running s b)
    (later : ∀ b ∈ rest, b.started = false) (turned : Turned s b rest s') : Control s' := by
  cases turned with
  | @skip i run loop at_ stays =>
    have short : i < b.runs.length := (List.getElem?_eq_some_iff.mp at_).1
    refine .running front started ⟨short, right.owners, right.storage, right.active, fun j r there_ => ?_⟩ later
    by_cases here : i = j
    · subst here
      rw [at_] at there_
      cases there_
      have own := right.runs i run at_
      unfold RunRight at own ⊢
      rcases stays with none_ | running
      · rw [none_] at own ⊢
        exact own
      · cases level : run.level with
        | none =>
          rw [level] at own
          exact own
        | some l =>
          rw [level] at own
          unfold Complete at running
          rcases own with ⟨_, none_, _⟩ | work
          · omega
          · refine Or.inr ⟨work.inside, work.inFlight, work.some_, ?_, fun complete => ?_⟩
            · have counted := work.counted
              rw [loop] at counted
              exact counted
            · omega
    · have below (ahead : Ahead s.loop j) : Ahead (.sweep (i + 1)) j := by
        rw [loop] at ahead
        exact Nat.lt_of_le_of_ne ahead here
      refine (right.runs j r there_).later rfl (by rw [loop]; rfl) below fun owed => ?_
      exact owed.imp_right (Or.imp_right below)
  | @pause i loop past active =>
    refine .running front started ⟨active, right.owners, right.storage, right.active, fun j r there_ => ?_⟩ later
    have short : j < b.runs.length := (List.getElem?_eq_some_iff.mp there_).1
    have long := List.getElem?_eq_none_iff.mp past
    have behind (ahead : Ahead s.loop j) : Ahead .idle j := by
      rw [loop] at ahead
      exact absurd ahead (show ¬ i ≤ j by omega)
    refine (right.runs j r there_).later rfl (by rw [loop]; rfl) behind fun owed => ?_
    exact owed.imp_right (Or.imp_right behind)
  | pop _ _ none_ => exact frontControl (right.retired none_) later
  | @retire i run level registry log loop at_ published last =>
    have settled := right.settled at_ published.live loop published.complete
    have short : i < b.runs.length := (List.getElem?_eq_some_iff.mp at_).1
    refine .running rfl started ⟨?_, fun w mem => (right.owners w mem).off (settled.owners w mem) rfl rfl,
      fun serial j inFlight storage => (right.storage serial j inFlight storage).off (settled.storage serial j _ storage) rfl rfl,
      activeRetired at_ (by rw [published.live]; rfl) rfl right.active, runsSet at_ rfl rfl rfl fun j r other there_ => ?_⟩
      later
    · show i + 1 ≤ (b.runs.set i _).length
      rw [List.length_set]
      exact short
    · have below (ahead : Ahead s.loop j) : Ahead (.sweep (i + 1)) j := by
        rw [loop] at ahead
        exact Nat.lt_of_le_of_ne ahead other
      refine (right.runs j r there_).later rfl (by rw [loop]; rfl) below fun owed => ?_
      exact owed.imp_right (Or.imp_right below)
  | @lower i run level registry log next loop at_ published more =>
    have settled := right.settled at_ published.live loop published.complete
    have short : i < b.runs.length := (List.getElem?_eq_some_iff.mp at_).1
    obtain ⟨less, some_, _⟩ := descendBelow more
    have inside : level ≤ 5 := by
      have own := right.runs i run at_
      unfold RunRight at own
      rw [published.live] at own
      rcases own with ⟨five, _⟩ | work
      · omega
      · have below := work.inside
        omega
    have positive : 0 < (run.work.nodes next).length := List.length_pos_of_ne_nil some_
    refine .running rfl started ⟨?_, fun w mem => (right.owners w mem).off (settled.owners w mem) rfl rfl,
      fun serial j inFlight storage => (right.storage serial j inFlight storage).off (settled.storage serial j _ storage) rfl rfl,
      activeSet at_ (by rw [published.live]; rfl) right.active, runsSet at_ rfl rfl ?_ fun j r other there_ => ?_⟩ later
    · exact ⟨_, next, List.getElem?_set_self short, rfl, by omega, Nat.zero_le _⟩
    · refine Or.inr ⟨by omega, rfl, positive, ?_, fun complete => ?_⟩
      · dsimp only [enqueued]
        rw [if_pos rfl, Nat.zero_add]
        exact settled.busy
      · dsimp only at complete
        omega
    · have below (ahead : Ahead s.loop j) : Ahead (.enqueue i 0) j := by
        rw [loop] at ahead
        exact Nat.lt_of_le_of_ne ahead other
      refine (right.runs j r there_).later rfl ?_ below fun owed => owed.imp_right (Or.imp_right below)
      rw [loop]
      exact if_neg other
  | @last i k run level loop at_ live past =>
    have short : i < b.runs.length := (List.getElem?_eq_some_iff.mp at_).1
    refine .running front started ⟨short, right.owners, right.storage, right.active, fun j r there_ => ?_⟩ later
    have below (ahead : Ahead s.loop j) : Ahead (.sweep (i + 1)) j := by
      rw [loop] at ahead
      exact ahead
    refine (right.runs j r there_).later rfl ?_ below fun owed => owed.imp_right (Or.imp_right below)
    rw [loop]
    dsimp only [enqueued]
    split
    · rename_i same
      subst same
      rw [at_] at there_
      cases there_
      exact (right.allEnqueued loop at_ live past).symm
    · rfl
  | @start i k run level node info loop at_ live here read =>
    have short : i < b.runs.length := (List.getElem?_eq_some_iff.mp at_).1
    have inList : k < (run.work.nodes level).length := (List.getElem?_eq_some_iff.mp here).1
    have bound := right.loop
    unfold LoopRight at bound
    rw [loop] at bound
    obtain ⟨r, l, there_, here', inside, _⟩ := bound
    rw [at_] at there_
    cases there_
    rw [live] at here'
    cases here'
    have own := right.runs i run at_
    unfold RunRight at own
    rw [live] at own
    have work : Busy s b.serial i run level := by
      rcases own with ⟨five, _⟩ | work
      · omega
      · exact work
    have more (serial j : Nat) : busy { setRun s b rest i { run with
        childStorageInfo := Function.update run.childStorageInfo k info } with
        workers := s.workers ++ [⟨b.serial, i, k⟩]
        log := s.log ++ [.start b.serial i level k]
        loop := .enqueue i (k + 1) } serial j = busy s serial j + if b.serial = serial ∧ i = j then 1 else 0 := by
      unfold busy
      dsimp only
      rw [List.countP_append, List.countP_singleton]
      simp only [ownedBy, Bool.and_eq_true, decide_eq_true_eq]
      show _ + countingAt s j = _
      omega
    refine .running rfl started ⟨?_, fun w mem => ?_, fun serial j inFlight storage =>
      (right.storage serial j inFlight storage).set at_ rfl rfl rfl fun _ same => same,
      activeSet at_ rfl right.active, runsSet at_ rfl rfl ?_ fun j r other there_ => ?_⟩ later
    · refine ⟨_, level, List.getElem?_set_self short, live, inside, ?_⟩
      show k + 1 ≤ run.inFlight
      rw [work.inFlight]
      exact inList
    · rcases List.mem_append.mp mem with mem | mem
      · exact (right.owners w mem).set at_ rfl rfl rfl fun _ same => same
      · rw [List.mem_singleton.mp mem]
        exact ⟨rfl, _, level, List.getElem?_set_self short, live, inside, inList⟩
    · unfold RunRight
      dsimp only
      rw [live]
      have counted := work.counted
      rw [loop] at counted
      dsimp only [enqueued] at counted
      rw [if_pos rfl] at counted
      refine Or.inr ⟨work.inside, work.inFlight, work.some_, ?_, fun complete => ?_⟩
      · have one := more b.serial i
        rw [if_pos ⟨rfl, rfl⟩] at one
        refine (congrArg (run.completed + ·) one).trans ?_
        dsimp only [enqueued]
        rw [if_pos rfl]
        omega
      · dsimp only at complete
        have all := work.inFlight
        omega
    · have below (ahead : Ahead s.loop j) : Ahead (.enqueue i (k + 1)) j := by
        rw [loop] at ahead
        exact ahead
      refine (right.runs j r there_).later ?_ ?_ below fun owed => owed.imp_right (Or.imp_right below)
      · have same := more b.serial j
        rw [if_neg fun both => other both.2] at same
        exact same
      · rw [loop]
        dsimp only [enqueued]
        rw [if_neg other, if_neg other]

end

/-! ## The storage loop -/

-- A worker and a completion are those of a run of the front batch.
theorem Control.front {s : State} (control : Control s) {w : Worker} (mem : w ∈ s.workers) :
    ∃ b rest, s.batches = b :: rest ∧ b.started = true ∧ Running s b ∧ ∀ b ∈ rest, b.started = false := by
  cases control with
  | empty _ quiet =>
    rw [quiet.1] at mem
    cases mem
  | waiting _ _ quiet =>
    rw [quiet.1] at mem
    cases mem
  | running front started right later => exact ⟨_, _, front, started, right, later⟩

theorem Control.counting {s : State} (control : Control s) {serial i inFlight : Nat}
    (at_ : s.storage = .counting serial i inFlight) :
    ∃ b rest, s.batches = b :: rest ∧ b.started = true ∧ Running s b ∧ ∀ b ∈ rest, b.started = false := by
  cases control with
  | empty _ quiet => exact absurd at_ (quiet.2 serial i inFlight)
  | waiting _ _ quiet => exact absurd at_ (quiet.2 serial i inFlight)
  | running front started right later => exact ⟨_, _, front, started, right, later⟩

theorem LoopRight.set {s s' : State} {b b' : Batch} {i : Nat} {run run' : Run} (right : LoopRight s b)
    (at_ : b.runs[i]? = some run) (runs : b'.runs = b.runs.set i run') (active : b'.active = b.active)
    (loop : s'.loop = s.loop) (level : run'.level = run.level) (inFlight : run'.inFlight = run.inFlight) :
    LoopRight s' b' := by
  unfold LoopRight at right ⊢
  rw [loop]
  cases own : s.loop with
  | idle =>
    rw [own] at right
    dsimp only at right ⊢
    omega
  | sweep j =>
    rw [own] at right
    dsimp only at right ⊢
    rw [runs, List.length_set]
    exact right
  | enqueue j k =>
    rw [own] at right
    obtain ⟨r, l, there_, here, inside, most⟩ := right
    rw [runs]
    by_cases same : i = j
    · subst same
      rw [at_] at there_
      cases there_
      exact ⟨run', l, List.getElem?_set_self (List.getElem?_eq_some_iff.mp at_).1, level.trans here, inside, by omega⟩
    · exact ⟨r, l, by rw [List.getElem?_set_ne same, there_], here, inside, most⟩

-- The batch a worker or a completion refers to is there, and so is its tree.
theorem withRunSome {s : State} {b : Batch} {rest : List Batch} (front : s.batches = b :: rest) {serial i : Nat}
    {P : Run → Nat → Prop} (live : Live b serial i P) (f : Run → Run) : ∃ run level, b.runs[i]? = some run ∧
      run.level = some level ∧ level < 5 ∧ P run level ∧ withRun s serial i f = some (setRun s b rest i (f run)) := by
  obtain ⟨own, run, level, at_, here, inside, holds⟩ := live
  refine ⟨run, level, at_, here, inside, holds, ?_⟩
  unfold withRun
  rw [front]
  dsimp only
  rw [if_pos own.symm, at_]
  rfl

theorem Running.busyRun {s : State} {b : Batch} {i level : Nat} {run : Run} (right : Running s b)
    (at_ : b.runs[i]? = some run) (live : run.level = some level) (inside : level < 5) : Busy s b.serial i run level := by
  have own := right.runs i run at_
  unfold RunRight at own
  rw [live] at own
  rcases own with ⟨five, _⟩ | work
  · omega
  · exact work

theorem finishControl {s : State} {w : Worker} (control : Control s) (mem : w ∈ s.workers) (idle : s.storage = .idle)
    (g : Generated) : ∃ s', finish s w g = some s' ∧ Control s' := by
  obtain ⟨b, rest, front, started, right, later⟩ := control.front mem
  have owner := right.owners w mem
  obtain ⟨run, level, at_, live, inside, _, with_⟩ := withRunSome front owner
    (fun run => { run with generated := Function.update run.generated w.node g })
  have own : inFlightOf s w.tree = run.inFlight := by
    rw [inFlightOf, runOf, front]
    simp only [List.head?_cons, Option.bind_some, at_, Option.map_some, Option.getD_some]
  unfold finish
  rw [with_, Option.map_some]
  refine ⟨_, rfl, ?_⟩
  have same (j : Nat) : busy { setRun s b rest w.tree { run with generated := Function.update run.generated w.node g } with
      workers := s.workers.erase w, storage := .counting w.serial w.tree (inFlightOf s w.tree)
      log := s.log ++ [.written w.serial w.tree (levelOf s w.tree) w.node] } b.serial j = busy s b.serial j := by
    unfold busy countingAt
    rw [idle]
    dsimp only
    rw [List.countP_erase, Nat.add_zero]
    have serial := owner.1
    have positive : w.tree = j → 0 < s.workers.countP (ownedBy b.serial j) := fun here =>
      List.countP_pos_iff.mpr ⟨w, mem, by simp [ownedBy, serial, here]⟩
    by_cases here : w.tree = j
    · have some_ := positive here
      rw [if_pos here, if_pos ⟨mem, by simp [ownedBy, serial, here]⟩]
      omega
    · rw [if_neg here, if_neg fun both => here (by simpa [ownedBy, serial] using both.2)]
      rfl
  have owed (j : Nat) (before : Owed s j) : Owed { setRun s b rest w.tree { run with
      generated := Function.update run.generated w.node g } with
      workers := s.workers.erase w, storage := .counting w.serial w.tree (inFlightOf s w.tree)
      log := s.log ++ [.written w.serial w.tree (levelOf s w.tree) w.node] } j := by
    rcases before with woken | posting | ahead
    · exact Or.inl woken
    · rw [idle] at posting
      cases posting
    · exact Or.inr (Or.inr ahead)
  refine .running rfl started ⟨right.loop.set at_ rfl rfl rfl rfl rfl, fun v mem' => ?_, fun serial i inFlight storage => ?_,
    activeSet at_ rfl right.active, runsSet at_ rfl rfl ?_ fun j r _ there_ => ?_⟩ later
  · exact (right.owners v (List.mem_of_mem_erase mem')).set at_ rfl rfl rfl fun _ holds => holds
  · cases storage
    exact ⟨owner.1, _, level, List.getElem?_set_self (List.getElem?_eq_some_iff.mp at_).1, live, inside, own⟩
  · have before := (right.runs w.tree run at_).later (same w.tree) rfl (fun ahead => ahead) (owed w.tree)
    unfold RunRight at before ⊢
    dsimp only
    rw [live] at before ⊢
    exact before.imp_right fun work => ⟨work.inside, work.inFlight, work.some_, work.counted, work.owed⟩
  · exact (right.runs j r there_).later (same j) rfl (fun ahead => ahead) (owed j)

theorem countControl {s : State} (control : Control s) {serial i inFlight : Nat}
    (storage : s.storage = .counting serial i inFlight) : ∃ s', count s = some s' ∧ Control s' := by
  obtain ⟨b, rest, front, started, right, later⟩ := control.counting storage
  have owner := right.storage serial i inFlight storage
  obtain ⟨run, level, at_, live, inside, own, with_⟩ := withRunSome front owner
    (fun run => { run with completed := run.completed + 1 })
  have short : i < b.runs.length := (List.getElem?_eq_some_iff.mp at_).1
  have completed : completedOf (setRun s b rest i { run with completed := run.completed + 1 }) i = run.completed + 1 := by
    rw [completedOf, runOf, setRun]
    simp only [List.head?_cons, Option.bind_some, List.getElem?_set_self short, Option.map_some, Option.getD_some]
  unfold count
  rw [storage]
  dsimp only
  rw [with_, Option.map_some, completed]
  refine ⟨_, rfl, ?_⟩
  generalize after : (if run.completed + 1 = inFlight then Storage.posting else .idle) = next
  have quiet : ∀ serial j n, next ≠ .counting serial j n := by
    intro serial j n same
    rw [← after] at same
    split at same
    · cases same
    · cases same
  have one (j : Nat) : busy { setRun s b rest i { run with completed := run.completed + 1 } with storage := next } b.serial j
      + (if i = j then 1 else 0) = busy s b.serial j := by
    unfold busy countingAt
    rw [storage]
    dsimp only
    have none_ : (match next with | .counting _ k _ => if k = j then 1 else 0 | _ => 0) = 0 := by
      cases next with
      | idle => rfl
      | counting serial k n => exact absurd rfl (quiet serial k n)
      | posting => rfl
    rw [none_]
    rfl
  have owed (j : Nat) (before : Owed s j) : Owed { setRun s b rest i { run with completed := run.completed + 1 } with
      storage := next } j := by
    rcases before with woken | posting | ahead
    · exact Or.inl woken
    · rw [storage] at posting
      cases posting
    · exact Or.inr (Or.inr ahead)
  refine .running rfl started ⟨right.loop.set at_ rfl rfl rfl rfl rfl, fun v mem => ?_, fun serial j n storage' => ?_,
    activeSet at_ rfl right.active, runsSet at_ rfl rfl ?_ fun j r other there_ => ?_⟩ later
  · exact (right.owners v mem).set at_ rfl rfl rfl fun _ holds => holds
  · exact absurd storage' (quiet serial j n)
  · have work := right.busyRun at_ live inside
    have counted := work.counted
    have less := one i
    rw [if_pos rfl] at less
    unfold RunRight
    dsimp only
    rw [live]
    refine Or.inr ⟨work.inside, work.inFlight, work.some_, ?_, fun complete => ?_⟩
    · have moved : run.completed + 1 + busy { setRun s b rest i { run with completed := run.completed + 1 } with
          storage := next } b.serial i = enqueued s.loop i run.inFlight := by omega
      exact moved
    · dsimp only at complete
      rw [if_pos (complete.trans own.symm)] at after
      exact Or.inr (Or.inl after.symm)
  · have less := one j
    rw [if_neg other, Nat.add_zero] at less
    exact (right.runs j r there_).later less rfl (fun ahead => ahead) (owed j)

theorem postControl {s : State} (control : Control s) (posting : s.storage = .posting) :
    Control { s with storage := .idle, wakes := s.wakes + 1 } := by
  have quiet (before : Quiet s) : Quiet { s with storage := .idle, wakes := s.wakes + 1 } :=
    ⟨before.1, fun _ _ _ at_ => (nomatch at_)⟩
  cases control with
  | empty none_ before idle => exact .empty none_ (quiet before) idle
  | waiting front fresh before idle _ later => exact .waiting front fresh (quiet before) idle (Nat.succ_pos _) later
  | running front started right later =>
    refine .running front started ⟨right.loop, right.owners, fun _ _ _ at_ => (nomatch at_), right.active,
      fun j r there_ => ?_⟩ later
    refine (right.runs j r there_).later ?_ rfl (fun ahead => ahead) fun _ => Or.inl (Nat.succ_pos _)
    unfold busy countingAt
    rw [posting]

theorem generateControl {s : State} (control : Control s) (none_ : s.batches = []) (max : Nat) (p : Pass)
    (sorted : List TreeWork) : Control (generateLods s max p sorted) := by
  cases control with
  | empty _ quiet idle =>
    have fresh : ∀ b ∈ (lodBatches sorted).mapIdx fun i works => newBatch (s.nextSerial + i) works, b.started = false := by
      intro b mem
      obtain ⟨i, _, rfl⟩ := List.mem_mapIdx.mp mem
      rfl
    have whole : (generateLods s max p sorted).batches =
        (lodBatches sorted).mapIdx fun i works => newBatch (s.nextSerial + i) works := by
      rw [generateLods, none_, List.nil_append]
    rw [← whole] at fresh
    cases list : (generateLods s max p sorted).batches with
    | nil => exact .empty list quiet idle
    | cons b rest =>
      rw [list] at fresh
      exact .waiting list (fresh b List.mem_cons_self) quiet idle (Nat.succ_pos _) fun b' mem =>
        fresh b' (List.mem_cons_of_mem _ mem)
  | waiting front =>
    rw [none_] at front
    cases front
  | running front =>
    rw [none_] at front
    cases front

theorem performControl {s s' : State} {a : Action} (control : Control s) (can : allowed s a) (done : perform s a = some s') :
    Control s' := by
  cases a with
  | generate max sorted =>
    obtain ⟨p, _, rfl⟩ := Option.map_eq_some_iff.mp done
    exact generateControl control can.1 max p sorted
  | change =>
    cases done
    cases control with
    | empty none_ quiet idle => exact .empty none_ quiet idle
    | waiting front fresh quiet idle woken later => exact .waiting front fresh quiet idle woken later
    | running front started right later =>
      exact .running front started ⟨right.loop, right.owners, right.storage, right.active, fun i run at_ =>
        (right.runs i run at_).later rfl rfl (fun ahead => ahead) fun owed => owed⟩ later
  | wake left =>
    cases done
    exact wakeControl control can.1
  | turn =>
    cases control with
    | empty _ _ idle => exact absurd idle can
    | waiting _ _ _ idle => exact absurd idle can
    | running front started right later => exact turnControl front started right later (turnCases front done)
  | finish w g =>
    obtain ⟨t, same, right⟩ := finishControl control can.1 can.2 g
    cases same.symm.trans done
    exact right
  | count =>
    obtain ⟨_, _, _, storage⟩ := can
    obtain ⟨t, same, right⟩ := countControl control storage
    cases same.symm.trans done
    exact right
  | post =>
    cases done
    exact postControl control can

-- A pass that is not over has a worker, a completion, a wake or the loop itself to go on with.
theorem Control.moves {s : State} (control : Control s) (some_ : s.batches ≠ []) :
    s.loop ≠ .idle ∨ 0 < s.wakes ∨ s.storage ≠ .idle ∨ s.workers ≠ [] := by
  cases control with
  | empty none_ => exact absurd none_ some_
  | waiting _ _ _ _ woken => exact Or.inr (Or.inl woken)
  | @running b rest front started right later =>
    by_contra stuck
    simp only [not_or, not_not, Nat.not_lt, Nat.le_zero] at stuck
    obtain ⟨idle, asleep, still, none_⟩ := stuck
    have active := right.loop
    unfold LoopRight at active
    rw [idle] at active
    dsimp only at active
    rw [right.active] at active
    obtain ⟨run, mem, live⟩ := List.countP_pos_iff.mp active
    obtain ⟨i, at_⟩ := List.getElem?_of_mem mem
    obtain ⟨level, live⟩ := Option.isSome_iff_exists.mp live
    have own := right.runs i run at_
    unfold RunRight at own
    rw [live] at own
    rcases own with ⟨_, _, ahead⟩ | work
    · rw [idle] at ahead
      exact ahead
    · have counted := work.counted
      unfold busy countingAt at counted
      rw [idle, none_, still] at counted
      dsimp only [enqueued] at counted
      rw [List.countP_nil] at counted
      rcases work.owed (by omega) with woken | posting | ahead
      · omega
      · rw [still] at posting
        cases posting
      · rw [idle] at ahead
        exact ahead

end Dewfall.LodSchedule
