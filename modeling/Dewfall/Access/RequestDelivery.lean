import Dewfall.General.Transition
import Mathlib.Data.List.Nodup
import Mathlib.Logic.Function.Basic

/-! Delivery of a dataset's requests: completion on its loop, the dispatch queue, the wake that is armed once,
and the calls of the host, also those made from a callback. Blocking and timeouts are left out. -/
namespace Dewfall.RequestDelivery
open General.Transition

inductive Status where
  | pending
  | completed
  | canceled
  | failed
  deriving DecidableEq, Repr

-- How far the loop is with a request: `finish`, then the two halves of `publish`.
inductive Stage where
  | running
  | finished
  | queued
  | published
  deriving DecidableEq, Repr

structure Request where
  status : Status
  hasDone : Bool
  callbackFired : Bool
  stage : Stage
  released : Bool
  deriving DecidableEq, Repr

-- A call of `dew_pump_poll`: the wake is re-armed, then the queue is taken.
inductive Poll where
  | rearmed
  | draining (batch : List Nat)
  deriving DecidableEq, Repr

def Poll.batch : Poll → List Nat
  | .rearmed => []
  | .draining batch => batch

-- `called` lists the callbacks with whether the handle was released before, `due` what was complete when the
-- outermost poll began, `answered` what was polled or waited for since it was complete.
structure World where
  requests : Nat → Request
  issued : Nat
  awaitingDispatch : List Nat
  armed : Bool
  polls : List Poll
  called : List (Nat × Bool)
  due : List Nat
  answered : List Nat

def blank : Request := ⟨.pending, false, false, .running, false⟩

def start : World := ⟨fun _ => blank, 0, [], false, [], [], [], []⟩

inductive Action where
  | requestRegion (hasDone : Bool)
  | finish (id : Nat) (terminal : Status)
  | push (id : Nat)
  | fire (id : Nat)
  | fireOther
  | cancel (id : Nat)
  | wait (id : Nat)
  | poll
  | drain
  | dispatch
  | pollDone
  | release (id : Nat)
  deriving DecidableEq, Repr

def Request.complete (r : Request) : Bool := r.stage = .queued || r.stage = .published

def settle (terminal : Status) (r : Request) : Request :=
  { r with status := if r.status = .pending then terminal else r.status }

def update (w : World) (id : Nat) (r : Request) : World := { w with requests := Function.update w.requests id r }

-- `claim_callback`, and `done` where the claim is won.
def deliver (w : World) (id : Nat) : World :=
  let r := w.requests id
  if r.callbackFired then w
  else { update w id { r with callbackFired := true } with
    called := if r.hasDone then w.called ++ [(id, r.released)] else w.called }

def completeNow (w : World) : List Nat := (List.range w.issued).filter fun id => (w.requests id).complete

def perform (w : World) : Action → World
  | .requestRegion hasDone =>
    { update w w.issued { blank with hasDone := hasDone } with issued := w.issued + 1 }
  | .finish id terminal => update w id { settle terminal (w.requests id) with stage := .finished }
  | .push id =>
    { update w id { w.requests id with stage := .queued } with awaitingDispatch := w.awaitingDispatch ++ [id] }
  | .fire id => { update w id { w.requests id with stage := .published } with armed := true }
  | .fireOther => { w with armed := true }
  | .cancel id => update w id (settle .canceled (w.requests id))
  | .wait id => { deliver w id with answered := w.answered ++ [id] }
  | .poll =>
    { w with armed := false, polls := .rearmed :: w.polls, due := if w.polls = [] then completeNow w else w.due }
  | .drain => { w with awaitingDispatch := [], polls := .draining w.awaitingDispatch :: w.polls.tail }
  | .dispatch =>
    match w.polls with
    | .draining (id :: rest) :: outer => { deliver w id with polls := .draining rest :: outer }
    | _ => w
  | .pollDone =>
    { w with polls := w.polls.tail, answered := if w.polls.tail = [] then w.answered ++ w.due else w.answered }
  | .release id =>
    { update w id { settle .canceled (w.requests id) with released := true } with
      awaitingDispatch := w.awaitingDispatch.erase id }

-- The host's thread is not inside the library, or runs a callback.
def HostFree (w : World) : Prop := w.polls.head? ≠ some .rearmed

instance (w) : Decidable (HostFree w) := by unfold HostFree; infer_instance

def Handle (w : World) (id : Nat) : Prop := id < w.issued ∧ (w.requests id).released = false

instance (w id) : Decidable (Handle w id) := by unfold Handle; infer_instance

def Allowed (w : World) : Action → Prop
  | .requestRegion _ | .poll => HostFree w
  | .finish id terminal => id < w.issued ∧ (w.requests id).stage = .running ∧ (terminal = .completed ∨ terminal = .failed)
  | .push id => id < w.issued ∧ (w.requests id).stage = .finished
  | .fire id => id < w.issued ∧ (w.requests id).stage = .queued
  | .fireOther => True
  | .cancel id => Handle w id
  | .wait id => HostFree w ∧ Handle w id ∧ (w.requests id).status ≠ .pending
  | .drain => w.polls.head? = some .rearmed
  | .dispatch => ∃ p ∈ w.polls.head?, p.batch ≠ []
  | .pollDone => w.polls.head? = some (.draining [])
  | .release id => HostFree w ∧ Handle w id

instance (w a) : Decidable (Allowed w a) := by
  cases a <;> dsimp only [Allowed] <;> infer_instance

def system : System World Action := System.ofFunction start Allowed perform

-- Released before its callback ran, a request that has one must have left the loop, and no drain may hold it.
def StepSound (w : World) : Action → Prop
  | .release id => (w.requests id).hasDone = false ∨ (w.requests id).callbackFired = true ∨
      (w.requests id).complete = true ∧ ∀ p ∈ w.polls, id ∉ p.batch
  | _ => True

instance (w a) : Decidable (StepSound w a) := by
  cases a <;> dsimp only [StepSound] <;> infer_instance

def calls (w : World) (id : Nat) : Nat := (w.called.map Prod.fst).count id

structure Delivered (w : World) : Prop where
  once : ∀ id, calls w id ≤ 1
  answered : ∀ id ∈ w.answered, (w.requests id).hasDone = true → (w.requests id).released = false → calls w id = 1
  unreleased : ∀ c ∈ w.called, c.2 = false
  woken : ∀ id ∈ w.awaitingDispatch, (w.requests id).stage = .published →
    w.armed = true ∨ w.polls.head? = some .rearmed

/-! ## The invariant -/

structure Invariant (w : World) : Prop where
  unissued : ∀ id, w.issued ≤ id → w.requests id = blank
  count : ∀ id, calls w id = if (w.requests id).callbackFired && (w.requests id).hasDone then 1 else 0
  unreleased : ∀ c ∈ w.called, c.2 = false
  queued : ∀ id ∈ w.awaitingDispatch, (w.requests id).complete = true
  distinct : w.awaitingDispatch.Nodup
  taken : ∀ p ∈ w.polls, ∀ id ∈ p.batch, (w.requests id).complete = true
  waiting : ∀ id, (w.requests id).complete = true → (w.requests id).callbackFired = false →
    (w.requests id).released = false → id ∈ w.awaitingDispatch ∨ ∃ p ∈ w.polls, id ∈ p.batch
  gone : ∀ id, (w.requests id).released = true → (w.requests id).hasDone = true → (w.requests id).callbackFired = false →
    (w.requests id).complete = true ∧ id ∉ w.awaitingDispatch ∧ ∀ p ∈ w.polls, id ∉ p.batch
  woken : ∀ id ∈ w.awaitingDispatch, (w.requests id).stage = .published →
    w.armed = true ∨ w.polls.head? = some .rearmed
  due : ∀ id ∈ w.due, (w.requests id).complete = true
  dueTaken : ∀ p, w.polls.getLast? = some p → p ≠ .rearmed → ∀ id ∈ w.due, id ∉ w.awaitingDispatch
  answered : ∀ id ∈ w.answered, (w.requests id).released = false → (w.requests id).callbackFired = true

theorem startInvariant : Invariant start :=
  ⟨fun _ _ => rfl, fun _ => rfl, fun _ mem => (nomatch mem), fun _ mem => (nomatch mem), List.nodup_nil,
    fun _ mem => (nomatch mem), fun _ complete => (nomatch complete), fun _ released => (nomatch released),
    fun _ mem => (nomatch mem), fun _ mem => (nomatch mem), fun _ last => (nomatch last), fun _ mem => (nomatch mem)⟩

theorem invariantDelivered {w : World} (inv : Invariant w) : Delivered w := by
  refine ⟨fun id => ?_, fun id mem hasDone kept => ?_, inv.unreleased, inv.woken⟩
  · rw [inv.count]
    split
    · exact Nat.le_refl 1
    · exact Nat.zero_le 1
  · rw [inv.count, inv.answered id mem kept, hasDone]
    rfl

/-! ## What a step leaves -/

theorem updateSame (w : World) (id : Nat) (r : Request) : (update w id r).requests id = r :=
  Function.update_self _ _ _

theorem updateOther (w : World) {id other : Nat} (r : Request) (apart : other ≠ id) :
    (update w id r).requests other = w.requests other := Function.update_of_ne apart _ _

-- One request moves on at the loop or is canceled; whether it is complete, fired or released stays.
theorem updateInvariant {w : World} {id : Nat} {r : Request} (inv : Invariant w) (issued : id < w.issued)
    (fired : r.callbackFired = (w.requests id).callbackFired) (hasDone : r.hasDone = (w.requests id).hasDone)
    (released : r.released = (w.requests id).released) (complete : r.complete = (w.requests id).complete)
    (stage : r.stage = .published → (w.requests id).stage = .published) : Invariant (update w id r) := by
  have same : ∀ other, ((update w id r).requests other).callbackFired = (w.requests other).callbackFired ∧
      ((update w id r).requests other).hasDone = (w.requests other).hasDone ∧
      ((update w id r).requests other).released = (w.requests other).released ∧
      ((update w id r).requests other).complete = (w.requests other).complete ∧
      (((update w id r).requests other).stage = .published → (w.requests other).stage = .published) := by
    intro other
    by_cases own : other = id
    · rw [own, updateSame]
      exact ⟨fired, hasDone, released, complete, stage⟩
    · rw [updateOther w r own]
      exact ⟨rfl, rfl, rfl, rfl, fun h => h⟩
  refine ⟨fun other high => ?_, fun other => ?_, inv.unreleased, fun other mem => ?_, inv.distinct, fun p mem other inside => ?_,
    fun other done unfired kept => ?_, fun other gone wants unfired => ?_, fun other mem now => ?_, fun other mem => ?_,
    inv.dueTaken, fun other mem kept => ?_⟩
  · rw [updateOther w r (Nat.ne_of_gt (Nat.lt_of_lt_of_le issued high))]
    exact inv.unissued other high
  · rw [(same other).1, (same other).2.1]
    exact inv.count other
  · rw [(same other).2.2.2.1]
    exact inv.queued other mem
  · rw [(same other).2.2.2.1]
    exact inv.taken p mem other inside
  · rw [(same other).2.2.2.1] at done
    rw [(same other).1] at unfired
    rw [(same other).2.2.1] at kept
    exact inv.waiting other done unfired kept
  · rw [(same other).2.2.1] at gone
    rw [(same other).2.1] at wants
    rw [(same other).1] at unfired
    rw [(same other).2.2.2.1]
    exact inv.gone other gone wants unfired
  · exact inv.woken other mem ((same other).2.2.2.2 now)
  · rw [(same other).2.2.2.1]
    exact inv.due other mem
  · rw [(same other).2.2.1] at kept
    rw [(same other).1]
    exact inv.answered other mem kept

theorem deliverFired (w : World) (id : Nat) : ((deliver w id).requests id).callbackFired = true := by
  unfold deliver
  dsimp only
  split
  · rename_i already
    exact already
  · exact congrArg Request.callbackFired (updateSame w id _)

theorem deliverInvariant {w : World} {id : Nat} (inv : Invariant w) (issued : id < w.issued)
    (kept : (w.requests id).hasDone = true → (w.requests id).callbackFired = false → (w.requests id).released = false) :
    Invariant (deliver w id) := by
  unfold deliver
  dsimp only
  split
  · exact inv
  rename_i unfired
  rw [Bool.not_eq_true] at unfired
  let r : Request := { w.requests id with callbackFired := true }
  have same : ∀ other, ((update w id r).requests other).hasDone = (w.requests other).hasDone ∧
      ((update w id r).requests other).released = (w.requests other).released ∧
      ((update w id r).requests other).complete = (w.requests other).complete ∧
      ((update w id r).requests other).stage = (w.requests other).stage ∧
      (((update w id r).requests other).callbackFired = false → (w.requests other).callbackFired = false) ∧
      ((w.requests other).callbackFired = true → ((update w id r).requests other).callbackFired = true) := by
    intro other
    by_cases here : other = id
    · rw [here, updateSame]
      exact ⟨rfl, rfl, rfl, rfl, fun never => (nomatch never), fun _ => rfl⟩
    · rw [updateOther w r here]
      exact ⟨rfl, rfl, rfl, rfl, fun h => h, fun h => h⟩
  refine ⟨fun other high => ?_, fun other => ?_, fun c mem => ?_, fun other mem => ?_, inv.distinct,
    fun p mem other inside => ?_, fun other done fresh still => ?_, fun other gone wants fresh => ?_, fun other mem now => ?_,
    fun other mem => ?_, inv.dueTaken, fun other mem still => ?_⟩
  · refine (updateOther w r (Nat.ne_of_gt (Nat.lt_of_lt_of_le issued high))).trans (inv.unissued other high)
  · have before := inv.count other
    unfold calls at before ⊢
    by_cases here : other = id
    · rw [here] at before ⊢
      rw [unfired] at before
      rw [show (update w id r).requests id = r from updateSame w id r]
      cases hasDone : (w.requests id).hasDone with
      | true =>
        simp only [Bool.false_and, Bool.false_eq_true, if_false] at before
        simp [r, List.count_append, before]
      | false =>
        simp only [Bool.false_and, Bool.false_eq_true, if_false] at before
        simp [r, before]
    · rw [show (update w id r).requests other = w.requests other from updateOther w r here]
      split
      · rw [List.map_append, List.count_append, before]
        simp [Ne.symm here]
      · exact before
  · dsimp only at mem
    split at mem
    · rename_i wants
      rcases List.mem_append.mp mem with before | last
      · exact inv.unreleased c before
      · rw [List.mem_singleton.mp last]
        exact kept wants unfired
    · exact inv.unreleased c mem
  · exact (same other).2.2.1.trans (inv.queued other mem)
  · exact (same other).2.2.1.trans (inv.taken p mem other inside)
  · exact inv.waiting other ((same other).2.2.1.symm.trans done) ((same other).2.2.2.2.1 fresh)
      ((same other).2.1.symm.trans still)
  · obtain ⟨complete, apart⟩ := inv.gone other ((same other).2.1.symm.trans gone) ((same other).1.symm.trans wants)
      ((same other).2.2.2.2.1 fresh)
    exact ⟨(same other).2.2.1.trans complete, apart⟩
  · exact inv.woken other mem ((same other).2.2.2.1.symm.trans now)
  · exact (same other).2.2.1.trans (inv.due other mem)
  · exact (same other).2.2.2.2.2 (inv.answered other mem ((same other).2.1.symm.trans still))

theorem requestInvariant {w : World} (inv : Invariant w) (hasDone : Bool) :
    Invariant { update w w.issued { blank with hasDone := hasDone } with issued := w.issued + 1 } := by
  let r : Request := { blank with hasDone := hasDone }
  have fresh := inv.unissued w.issued (Nat.le_refl _)
  have same : ∀ id, ((update w w.issued r).requests id).callbackFired = (w.requests id).callbackFired ∧
      ((update w w.issued r).requests id).released = (w.requests id).released ∧
      ((update w w.issued r).requests id).complete = (w.requests id).complete ∧
      ((update w w.issued r).requests id).stage = (w.requests id).stage := by
    intro id
    by_cases own : id = w.issued
    · rw [own, updateSame, fresh]
      exact ⟨rfl, rfl, rfl, rfl⟩
    · rw [updateOther w r own]
      exact ⟨rfl, rfl, rfl, rfl⟩
  refine ⟨fun id high => ?_, fun id => ?_, inv.unreleased, fun id mem => ?_, inv.distinct, fun p mem id inside => ?_,
    fun id done unfired kept => ?_, fun id gone wants unfired => ?_, fun id mem now => ?_, fun id mem => ?_, inv.dueTaken,
    fun id mem kept => ?_⟩
  · have above : w.issued < id := high
    exact (updateOther w r (Nat.ne_of_gt above)).trans (inv.unissued id (Nat.le_of_lt above))
  · by_cases own : id = w.issued
    · have none_ := inv.count id
      rw [own, fresh] at none_
      rw [own]
      change calls w w.issued = if ((update w w.issued r).requests w.issued).callbackFired && _ then 1 else 0
      rw [updateSame]
      exact none_
    · refine (inv.count id).trans ?_
      rw [show (update w w.issued r).requests id = w.requests id from updateOther w r own]
  · exact (same id).2.2.1.trans (inv.queued id mem)
  · exact (same id).2.2.1.trans (inv.taken p mem id inside)
  · exact inv.waiting id ((same id).2.2.1.symm.trans done) ((same id).1.symm.trans unfired) ((same id).2.1.symm.trans kept)
  · have other : id ≠ w.issued := by
      rintro rfl
      rw [show (update w w.issued r).requests w.issued = r from updateSame w w.issued r] at gone
      cases gone
    rw [show (update w w.issued r).requests id = w.requests id from updateOther w r other] at gone wants unfired
    obtain ⟨complete, apart⟩ := inv.gone id gone wants unfired
    exact ⟨(same id).2.2.1.trans complete, apart⟩
  · exact inv.woken id mem ((same id).2.2.2.symm.trans now)
  · exact (same id).2.2.1.trans (inv.due id mem)
  · exact (same id).1.trans (inv.answered id mem ((same id).2.1.symm.trans kept))

theorem pushInvariant {w : World} {id : Nat} (inv : Invariant w) (issued : id < w.issued)
    (finished : (w.requests id).stage = .finished) : Invariant
      { update w id { w.requests id with stage := .queued } with awaitingDispatch := w.awaitingDispatch ++ [id] } := by
  let r : Request := { w.requests id with stage := .queued }
  have incomplete : (w.requests id).complete = false := by simp [Request.complete, finished]
  have absent : id ∉ w.awaitingDispatch := fun mem => Bool.false_ne_true (incomplete.symm.trans (inv.queued id mem))
  have same : ∀ other, other ≠ id → (update w id r).requests other = w.requests other :=
    fun other apart => updateOther w r apart
  have own : (update w id r).requests id = r := updateSame w id r
  have apart : ∀ other, (w.requests other).complete = true → other ≠ id := by
    rintro _ done rfl
    exact Bool.false_ne_true (incomplete.symm.trans done)
  have still : ∀ other, (w.requests other).complete = true → ((update w id r).requests other).complete = true := by
    intro other done
    rw [same other (apart other done)]
    exact done
  refine ⟨fun other high => ?_, fun other => ?_, inv.unreleased, fun other mem => ?_, ?_, fun p mem other inside => ?_,
    fun other done unfired kept => ?_, fun other gone wants unfired => ?_, fun other mem now => ?_, fun other mem => ?_,
    fun p last draining other mem => ?_, fun other mem kept => ?_⟩
  · exact (same other (Nat.ne_of_gt (Nat.lt_of_lt_of_le issued high))).trans (inv.unissued other high)
  · by_cases here : other = id
    · rw [here]
      refine (inv.count id).trans ?_
      rw [own]
    · refine (inv.count other).trans ?_
      rw [same other here]
  · rcases List.mem_append.mp mem with before | last
    · exact still other (inv.queued other before)
    · rw [List.mem_singleton.mp last, own]
      rfl
  · exact List.nodup_append.mpr ⟨inv.distinct, List.nodup_singleton _, fun a first b second => by
      rw [List.mem_singleton.mp second]
      exact fun equal => absent (equal ▸ first)⟩
  · exact still other (inv.taken p mem other inside)
  · by_cases here : other = id
    · exact Or.inl (List.mem_append_right _ (List.mem_singleton.mpr here))
    · rw [same other here] at done unfired kept
      exact (inv.waiting other done unfired kept).imp_left (List.mem_append_left _)
  · by_cases here : other = id
    · rw [here, own] at gone wants unfired
      exact absurd (incomplete.symm.trans (inv.gone id gone wants unfired).1) Bool.false_ne_true
    · rw [same other here] at gone wants unfired
      obtain ⟨complete, unqueued, free⟩ := inv.gone other gone wants unfired
      refine ⟨still other complete, fun mem => ?_, free⟩
      rcases List.mem_append.mp mem with before | last
      · exact unqueued before
      · exact here (List.mem_singleton.mp last)
  · rcases List.mem_append.mp mem with before | last
    · rw [same other (apart other (inv.queued other before))] at now
      exact inv.woken other before now
    · rw [List.mem_singleton.mp last, own] at now
      cases now
  · exact still other (inv.due other mem)
  · intro there
    rcases List.mem_append.mp there with before | here
    · exact inv.dueTaken p last draining other mem before
    · exact apart other (inv.due other mem) (List.mem_singleton.mp here)
  · by_cases here : other = id
    · rw [here, own] at kept
      rw [here, own]
      exact inv.answered id (here ▸ mem) kept
    · rw [same other here] at kept ⊢
      exact inv.answered other mem kept

theorem fireInvariant {w : World} {id : Nat} (inv : Invariant w) (issued : id < w.issued)
    (queued : (w.requests id).stage = .queued) :
    Invariant { update w id { w.requests id with stage := .published } with armed := true } := by
  let r : Request := { w.requests id with stage := .published }
  have same : ∀ other, ((update w id r).requests other).callbackFired = (w.requests other).callbackFired ∧
      ((update w id r).requests other).hasDone = (w.requests other).hasDone ∧
      ((update w id r).requests other).released = (w.requests other).released ∧
      ((update w id r).requests other).complete = (w.requests other).complete := by
    intro other
    by_cases own : other = id
    · rw [own, updateSame]
      exact ⟨rfl, rfl, rfl, by simp [r, Request.complete, queued]⟩
    · rw [updateOther w r own]
      exact ⟨rfl, rfl, rfl, rfl⟩
  refine ⟨fun other high => ?_, fun other => ?_, inv.unreleased, fun other mem => ?_, inv.distinct,
    fun p mem other inside => ?_, fun other done unfired kept => ?_, fun other gone wants unfired => ?_,
    fun other mem now => Or.inl rfl, fun other mem => ?_, inv.dueTaken, fun other mem kept => ?_⟩
  · exact (updateOther w r (Nat.ne_of_gt (Nat.lt_of_lt_of_le issued high))).trans (inv.unissued other high)
  · refine (inv.count other).trans ?_
    rw [← (same other).1, ← (same other).2.1]
  · exact (same other).2.2.2.trans (inv.queued other mem)
  · exact (same other).2.2.2.trans (inv.taken p mem other inside)
  · exact inv.waiting other ((same other).2.2.2.symm.trans done) ((same other).1.symm.trans unfired)
      ((same other).2.2.1.symm.trans kept)
  · obtain ⟨complete, apart⟩ := inv.gone other ((same other).2.2.1.symm.trans gone) ((same other).2.1.symm.trans wants)
      ((same other).1.symm.trans unfired)
    exact ⟨(same other).2.2.2.trans complete, apart⟩
  · exact (same other).2.2.2.trans (inv.due other mem)
  · exact (same other).1.trans (inv.answered other mem ((same other).2.2.1.symm.trans kept))

/-! ## Polling -/

theorem pollInvariant {w : World} (inv : Invariant w) : Invariant
    { w with armed := false, polls := .rearmed :: w.polls, due := if w.polls = [] then completeNow w else w.due } := by
  refine ⟨inv.unissued, inv.count, inv.unreleased, inv.queued, inv.distinct, fun p mem id inside => ?_,
    fun id done unfired kept => ?_, fun id gone wants unfired => ?_, fun id mem now => Or.inr rfl, fun id mem => ?_,
    fun p last draining id mem => ?_, inv.answered⟩
  · rcases List.mem_cons.mp mem with rfl | before
    · cases inside
    · exact inv.taken p before id inside
  · refine (inv.waiting id done unfired kept).imp_right ?_
    rintro ⟨p, mem, inside⟩
    exact ⟨p, List.mem_cons_of_mem _ mem, inside⟩
  · obtain ⟨complete, unqueued, apart⟩ := inv.gone id gone wants unfired
    refine ⟨complete, unqueued, fun p mem inside => ?_⟩
    rcases List.mem_cons.mp mem with rfl | before
    · cases inside
    · exact apart p before inside
  · dsimp only at mem
    split at mem
    · exact (List.mem_filter.mp mem).2
    · exact inv.due id mem
  · dsimp only at last mem
    split at mem
    · rename_i outermost
      rw [outermost] at last
      cases last
      exact absurd rfl draining
    · rename_i nested
      rw [List.getLast?_cons_of_ne_nil nested] at last
      exact inv.dueTaken p last draining id mem

theorem drainInvariant {w : World} (inv : Invariant w) (top : w.polls.head? = some .rearmed) : Invariant
    { w with awaitingDispatch := [], polls := .draining w.awaitingDispatch :: w.polls.tail } := by
  obtain ⟨outer, shape⟩ : ∃ outer, w.polls = .rearmed :: outer := by
    cases shape : w.polls with
    | nil => rw [shape] at top; cases top
    | cons p outer =>
      rw [shape] at top
      cases top
      exact ⟨outer, rfl⟩
  refine ⟨inv.unissued, inv.count, inv.unreleased, fun id mem => (nomatch mem), List.nodup_nil, fun p mem id inside => ?_,
    fun id done unfired kept => Or.inr ?_, fun id gone wants unfired => ?_, fun id mem => (nomatch mem), inv.due,
    fun p last draining id mem there => (nomatch there), inv.answered⟩
  · rcases List.mem_cons.mp mem with rfl | before
    · exact inv.queued id inside
    · exact inv.taken p (List.mem_of_mem_tail before) id inside
  · rcases inv.waiting id done unfired kept with queued | ⟨p, mem, inside⟩
    · exact ⟨_, List.mem_cons_self, queued⟩
    · rw [shape] at mem
      rcases List.mem_cons.mp mem with rfl | before
      · cases inside
      · exact ⟨p, List.mem_cons_of_mem _ (by rw [shape]; exact before), inside⟩
  · obtain ⟨complete, unqueued, apart⟩ := inv.gone id gone wants unfired
    refine ⟨complete, List.not_mem_nil, fun p mem inside => ?_⟩
    rcases List.mem_cons.mp mem with rfl | before
    · exact unqueued inside
    · exact apart p (List.mem_of_mem_tail before) inside

theorem dispatchInvariant {w : World} {id : Nat} {rest : List Nat} {outer : List Poll} (inv : Invariant w)
    (shape : w.polls = .draining (id :: rest) :: outer) :
    Invariant { deliver w id with polls := .draining rest :: outer } := by
  have here : .draining (id :: rest) ∈ w.polls := by rw [shape]; exact List.mem_cons_self
  have complete := inv.taken _ here id List.mem_cons_self
  have issued : id < w.issued := by
    by_contra high
    rw [inv.unissued id (Nat.le_of_not_lt high)] at complete
    cases complete
  have delivered := deliverInvariant inv issued fun wants unfired => by
    rw [← Bool.not_eq_true]
    intro gone
    exact (inv.gone id gone wants unfired).2.2 _ here List.mem_cons_self
  have polls : (deliver w id).polls = .draining (id :: rest) :: outer := by
    unfold deliver
    dsimp only
    split
    · exact shape
    · exact shape
  have fired := deliverFired w id
  have fewer : ∀ p ∈ Poll.draining rest :: outer, ∃ q ∈ (deliver w id).polls, ∀ other ∈ p.batch, other ∈ q.batch := by
    intro p mem
    rw [polls]
    rcases List.mem_cons.mp mem with rfl | before
    · exact ⟨_, List.mem_cons_self, fun other inside => List.mem_cons_of_mem _ inside⟩
    · exact ⟨p, List.mem_cons_of_mem _ before, fun _ inside => inside⟩
  refine ⟨delivered.unissued, delivered.count, delivered.unreleased, delivered.queued, delivered.distinct,
    fun p mem other inside => ?_, fun other done unfired kept => ?_, fun other gone wants unfired => ?_,
    fun other mem now => ?_, delivered.due, fun p last draining other mem => ?_, delivered.answered⟩
  · obtain ⟨q, there, all⟩ := fewer p mem
    exact delivered.taken q there other (all other inside)
  · refine (delivered.waiting other done unfired kept).imp_right ?_
    rintro ⟨q, there, inside⟩
    rw [polls] at there
    rcases List.mem_cons.mp there with rfl | before
    · rcases List.mem_cons.mp inside with rfl | later
      · exact absurd (unfired.symm.trans fired) Bool.false_ne_true
      · exact ⟨_, List.mem_cons_self, later⟩
    · exact ⟨q, List.mem_cons_of_mem _ before, inside⟩
  · obtain ⟨complete, unqueued, apart⟩ := delivered.gone other gone wants unfired
    refine ⟨complete, unqueued, fun p mem inside => ?_⟩
    obtain ⟨q, there, all⟩ := fewer p mem
    exact apart q there (all other inside)
  · refine Or.inl ((delivered.woken other mem now).resolve_right fun top => ?_)
    rw [polls] at top
    cases top
  · cases outer with
    | nil => exact delivered.dueTaken (.draining (id :: rest)) (by rw [polls]; rfl) (fun other => by cases other) other mem
    | cons q more =>
      refine delivered.dueTaken p ?_ draining other mem
      rw [polls]
      exact last

theorem pollDoneInvariant {w : World} (inv : Invariant w) (top : w.polls.head? = some (.draining [])) : Invariant
    { w with polls := w.polls.tail, answered := if w.polls.tail = [] then w.answered ++ w.due else w.answered } := by
  obtain ⟨outer, shape⟩ : ∃ outer, w.polls = .draining [] :: outer := by
    cases shape : w.polls with
    | nil => rw [shape] at top; cases top
    | cons p outer =>
      rw [shape] at top
      cases top
      exact ⟨outer, rfl⟩
  have tail : w.polls.tail = outer := by rw [shape]; rfl
  refine ⟨inv.unissued, inv.count, inv.unreleased, inv.queued, inv.distinct,
    fun p mem id inside => inv.taken p (List.mem_of_mem_tail mem) id inside, fun id done unfired kept => ?_,
    fun id gone wants unfired => ?_, fun id mem now => ?_, inv.due, fun p last draining id mem => ?_, fun id mem kept => ?_⟩
  · refine (inv.waiting id done unfired kept).imp_right ?_
    rintro ⟨p, mem, inside⟩
    rw [shape] at mem
    rcases List.mem_cons.mp mem with rfl | before
    · cases inside
    · exact ⟨p, tail ▸ before, inside⟩
  · obtain ⟨complete, unqueued, apart⟩ := inv.gone id gone wants unfired
    exact ⟨complete, unqueued, fun p mem => apart p (List.mem_of_mem_tail mem)⟩
  · refine Or.inl ((inv.woken id mem now).resolve_right fun rearmed => ?_)
    rw [shape] at rearmed
    cases rearmed
  · rw [tail] at last
    refine inv.dueTaken p ?_ draining id mem
    rw [shape]
    cases outer with
    | nil => cases last
    | cons q more => exact last
  · dsimp only at mem
    split at mem
    · rename_i outermost
      rcases List.mem_append.mp mem with before | polled
      · exact inv.answered id before kept
      · by_contra unfired
        rw [Bool.not_eq_true] at unfired
        rw [tail] at outermost
        rw [outermost] at shape
        have untaken := inv.dueTaken (.draining []) (by rw [shape]; rfl) (fun other => by cases other) id polled
        rcases inv.waiting id (inv.due id polled) unfired kept with queued | ⟨p, there, inside⟩
        · exact untaken queued
        · rw [shape] at there
          cases List.mem_singleton.mp there
          cases inside
    · exact inv.answered id mem kept

theorem releaseInvariant {w : World} {id : Nat} (inv : Invariant w) (issued : id < w.issued)
    (sound : StepSound w (.release id)) : Invariant
      { update w id { settle .canceled (w.requests id) with released := true } with
        awaitingDispatch := w.awaitingDispatch.erase id } := by
  let r : Request := { settle .canceled (w.requests id) with released := true }
  have same : ∀ other, ((update w id r).requests other).callbackFired = (w.requests other).callbackFired ∧
      ((update w id r).requests other).hasDone = (w.requests other).hasDone ∧
      ((update w id r).requests other).complete = (w.requests other).complete ∧
      ((update w id r).requests other).stage = (w.requests other).stage ∧
      (((update w id r).requests other).released = false → (w.requests other).released = false ∧ other ≠ id) := by
    intro other
    by_cases own : other = id
    · rw [own, updateSame]
      exact ⟨rfl, rfl, rfl, rfl, fun never => (nomatch never)⟩
    · rw [updateOther w r own]
      exact ⟨rfl, rfl, rfl, rfl, fun kept => ⟨kept, own⟩⟩
  have fewer : ∀ other, other ∈ w.awaitingDispatch.erase id → other ∈ w.awaitingDispatch :=
    fun other mem => List.mem_of_mem_erase mem
  refine ⟨fun other high => ?_, fun other => ?_, inv.unreleased, fun other mem => ?_, inv.distinct.erase id,
    fun p mem other inside => ?_, fun other done unfired kept => ?_, fun other gone wants unfired => ?_,
    fun other mem now => ?_, fun other mem => ?_, fun p last draining other mem there => ?_, fun other mem kept => ?_⟩
  · exact (updateOther w r (Nat.ne_of_gt (Nat.lt_of_lt_of_le issued high))).trans (inv.unissued other high)
  · refine (inv.count other).trans ?_
    rw [← (same other).1, ← (same other).2.1]
  · exact (same other).2.2.1.trans (inv.queued other (fewer other mem))
  · exact (same other).2.2.1.trans (inv.taken p mem other inside)
  · obtain ⟨before, apart⟩ := (same other).2.2.2.2 kept
    exact (inv.waiting other ((same other).2.2.1.symm.trans done) ((same other).1.symm.trans unfired) before).imp_left
      (List.mem_erase_of_ne apart).mpr
  · by_cases own : other = id
    · have before := (same other).1.symm.trans unfired
      have hasDone := (same other).2.1.symm.trans wants
      rw [own] at before hasDone ⊢
      rcases sound with silent | fired | ⟨complete, apart⟩
      · exact absurd (silent.symm.trans hasDone) Bool.false_ne_true
      · exact absurd (before.symm.trans fired) Bool.false_ne_true
      · exact ⟨(same id).2.2.1.trans complete, inv.distinct.not_mem_erase, apart⟩
    · rw [show (update w id r).requests other = w.requests other from updateOther w r own] at gone wants unfired
      obtain ⟨complete, unqueued, apart⟩ := inv.gone other gone wants unfired
      exact ⟨(same other).2.2.1.trans complete, fun mem => unqueued (fewer other mem), apart⟩
  · exact inv.woken other (fewer other mem) ((same other).2.2.2.1.symm.trans now)
  · exact (same other).2.2.1.trans (inv.due other mem)
  · exact inv.dueTaken p last draining other mem (fewer other there)
  · exact (same other).1.trans (inv.answered other mem ((same other).2.2.2.2 kept).1)

/-! ## Runs -/

theorem waitInvariant {w : World} {id : Nat} (inv : Invariant w) (handle : Handle w id) :
    Invariant { deliver w id with answered := w.answered ++ [id] } := by
  have delivered := deliverInvariant inv handle.1 fun _ _ => handle.2
  have answered : (deliver w id).answered = w.answered := by
    unfold deliver
    dsimp only
    split
    · rfl
    · rfl
  refine ⟨delivered.unissued, delivered.count, delivered.unreleased, delivered.queued, delivered.distinct, delivered.taken,
    delivered.waiting, delivered.gone, delivered.woken, delivered.due, delivered.dueTaken, fun other mem kept => ?_⟩
  rcases List.mem_append.mp mem with before | last
  · exact delivered.answered other (answered ▸ before) kept
  · rw [List.mem_singleton.mp last]
    exact deliverFired w id

theorem performInvariant {w : World} {a} (inv : Invariant w) (allowed : Allowed w a) (sound : StepSound w a) :
    Invariant (perform w a) := by
  cases a with
  | requestRegion hasDone => exact requestInvariant inv hasDone
  | finish id terminal =>
    obtain ⟨issued, running, _⟩ := allowed
    refine updateInvariant inv issued rfl rfl rfl ?_ fun never => (nomatch never)
    simp [Request.complete, running]
  | push id => exact pushInvariant inv allowed.1 allowed.2
  | fire id => exact fireInvariant inv allowed.1 allowed.2
  | fireOther =>
    exact ⟨inv.unissued, inv.count, inv.unreleased, inv.queued, inv.distinct, inv.taken, inv.waiting, inv.gone,
      fun _ _ _ => Or.inl rfl, inv.due, inv.dueTaken, inv.answered⟩
  | cancel id => exact updateInvariant inv allowed.1 rfl rfl rfl rfl fun now => now
  | wait id => exact waitInvariant inv allowed.2.1
  | poll => exact pollInvariant inv
  | drain => exact drainInvariant inv allowed
  | dispatch =>
    obtain ⟨p, top, some_⟩ := allowed
    cases shape : w.polls with
    | nil =>
      rw [shape] at top
      cases top
    | cons q outer =>
      rw [shape] at top
      cases top
      unfold perform
      simp only [shape]
      cases p with
      | rearmed => exact inv
      | draining batch =>
        cases batch with
        | nil => exact inv
        | cons id rest => exact dispatchInvariant inv shape
  | pollDone => exact pollDoneInvariant inv allowed
  | release id => exact releaseInvariant inv allowed.2.1 sound

theorem invariantHolds : Inductive (system.under StepSound) Invariant := by
  constructor
  · intro w first
    cases first
    exact startInvariant
  · intro w a after inv step
    obtain ⟨sound, allowed, rfl⟩ := step
    exact performInvariant inv allowed sound

theorem requestsDelivered {w} (reach : Reachable (system.under StepSound) w) : Delivered w :=
  invariantDelivered (reachableInvariant invariantHolds reach)

-- Three requests: one is waited for and released from its callback's poll, one is canceled and polled, and one has no
-- callback and is released while it runs.
def mixedActions : List Action :=
  [.requestRegion true, .requestRegion true, .requestRegion false, .release 2, .finish 0 .completed, .wait 0, .push 0,
    .fire 0, .cancel 1, .finish 1 .failed, .finish 2 .completed, .push 2, .poll, .push 1, .drain, .fire 1, .dispatch,
    .dispatch, .release 0, .dispatch, .pollDone, .release 1]

theorem mixedDelivered : Delivered (mixedActions.foldl perform start) :=
  requestsDelivered (reachableAllowed (by decide))

/-! A request is released while it runs; the loop publishes it all the same, and the next poll calls back. -/

def lateActions : List Action :=
  [.requestRegion true, .release 0, .finish 0 .completed, .push 0, .fire 0, .poll, .drain, .dispatch]

theorem releasedCalledBack : ¬∀ w, Reachable system w → Delivered w := by
  intro all
  have run : AllAllowed (fun w a => True ∧ Allowed w a) perform start lateActions := by decide
  have delivered := all _ (reachableUnder (reachableAllowed run))
  exact absurd (delivered.unreleased (0, true) (by decide)) (by decide)

end Dewfall.RequestDelivery
