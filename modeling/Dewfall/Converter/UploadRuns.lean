import Dewfall.Converter.UploadHandler

/-! Order of the committed bands over whole runs. A band that follows a completed one is pushed
behind the rest of the queue, so the order is kept only while at most one band is queued at each
completion. Bands may be enqueued while the bootstrap runs, and are delivered behind it. -/
namespace Dewfall.UploadRuns
open General.Transition UploadHandler

def inFlight (h : Handler) : List Nat := (h.processing.map Prod.fst).toList

-- Every enqueued band is committed, in flight, queued or in the pipe, in this order.
structure Flow (first : Nat) (h : Handler) (committed : List Nat) : Prop where
  order : h.parked = false →
    committed ++ inFlight h ++ h.queued ++ h.bandPipe = List.range' first h.enqueuedBands
  done : committed <+: List.range' first h.enqueuedBands
  stats : h.statsParked = h.parked
  flight : h.bandInFlight = h.processing.isSome
  idle : h.processing = none → h.parked = false → h.queued = []
  stop : h.parked = true → h.processing = none

structure Ready (first : Nat) (w : World) : Prop where
  flow : Flow first w.handler w.committed
  root : w.root = some (first + w.committed.length)
  base : w.handler.bootstrapBandCount = first
  count : w.handler.bandsCommitted = first + w.committed.length

def seeded (first : Nat) : Handler :=
  { Handler.fresh with bandCount := first, bootstrapBandCount := first }

-- Bands that wait in the pipe.
def piped (first n : Nat) (h : Handler) : Handler :=
  { h with enqueuedBands := n, bandPipe := List.range' first n }

def Waiting (first : Nat) (w : World) : Prop :=
  w.committed = [] ∧ ∃ n, match w.bootstrap with
    | .asking => w.handler = piped first n .fresh ∧ w.root.getD 0 = first
    | .claiming => w.handler = piped first n .fresh ∧ first = 0
    | .reading => w.handler = piped first n .fresh ∧ w.root = some first
    | .bands _ => w.handler = piped first n (seeded first) ∧ w.root = some first
    | .failed => w.handler = piped first n .fresh ∨ w.handler = piped first n (seeded first)
    | .done => False

def Invariant (first : Nat) (w : World) : Prop :=
  w.bootstrap = .done ∧ Ready first w ∨ Waiting first w

def StepSound (w : World) : Action → Prop
  | .deliver => w.bootstrap = .done
  | .bandStep true => w.handler.processing.map Prod.snd = some .rootManifest →
      w.handler.queued.length ≤ 1
  | _ => True

instance (w a) : Decidable (StepSound w a) := by
  unfold StepSound; split <;> infer_instance

theorem prefixRange {first n : Nat} {l : List Nat} (part : l <+: List.range' first n) :
    l = List.range' first l.length := by
  obtain ⟨rest, whole⟩ := part
  obtain ⟨k, _, same, _⟩ := List.range'_eq_append_iff.mp whole.symm
  rw [same, List.length_range']

/-! ## One step -/

theorem handleBandFlow {first band committed} {h : Handler}
    (order : h.parked = false →
      committed ++ inFlight h ++ h.queued ++ [band] ++ h.bandPipe = List.range' first h.enqueuedBands)
    (done : committed <+: List.range' first h.enqueuedBands)
    (stats : h.statsParked = h.parked) (flight : h.bandInFlight = h.processing.isSome)
    (idle : h.processing = none → h.parked = false → h.queued = [])
    (stop : h.parked = true → h.processing = none) : Flow first (handleBand h band) committed := by
  unfold handleBand
  dsimp only
  split
  · rename_i busy
    have kept : h.processing = none → h.parked = false → False := by
      intro none free
      simp [flight, none, free] at busy
    refine ⟨fun free => ?_, done, stats, flight, fun none free => (kept none free).elim, stop⟩
    rw [← order free, List.append_assoc _ h.queued]
    rfl
  · rename_i ready
    simp only [Bool.or_eq_true, not_or, Bool.not_eq_true, flight] at ready
    have none : h.processing = none := by simpa using ready.1
    have empty := idle none ready.2
    have whole := order ready.2
    rw [empty] at whole ⊢
    rw [List.nil_append]
    refine ⟨fun _ => ?_, done, stats, rfl, fun some => by simp at some, fun parked => ?_⟩
    · rw [← whole]
      simp [inFlight, none]
    · exact absurd (ready.2.symm.trans parked) Bool.false_ne_true

theorem afterBandFlow {first committed} {h : Handler}
    (order : h.parked = false →
      committed ++ h.queued ++ h.bandPipe = List.range' first h.enqueuedBands)
    (done : committed <+: List.range' first h.enqueuedBands)
    (stats : h.statsParked = h.parked) (short : h.parked = false → h.queued.length ≤ 1) :
    Flow first (afterBand h) committed := by
  unfold afterBand
  dsimp only
  split
  · rename_i parked
    exact ⟨fun free => by simp [parked] at free, done, stats, rfl,
      fun _ free => by simp [parked] at free, fun _ => rfl⟩
  rename_i free
  rw [Bool.not_eq_true] at free
  split
  · rename_i empty
    refine ⟨fun _ => ?_, done, stats, rfl, fun _ _ => empty, fun _ => rfl⟩
    rw [← order free]
    simp [inFlight]
  · rename_i following rest queue
    have alone : rest = [] := by
      have := short free
      rw [queue] at this
      exact List.eq_nil_of_length_eq_zero (by simpa using this)
    subst alone
    refine handleBandFlow (fun _ => ?_) done stats rfl (fun _ _ => rfl) (fun _ => rfl)
    have whole := order free
    rw [queue] at whole
    rw [← whole]
    simp [inFlight]

theorem afterBandCounts (h : Handler) :
    (afterBand h).bootstrapBandCount = h.bootstrapBandCount ∧
      (afterBand h).bandsCommitted = h.bandsCommitted := by
  unfold afterBand handleBand
  dsimp only
  repeat' split
  all_goals exact ⟨rfl,rfl⟩

theorem handleBandCounts (h : Handler) (band : Nat) :
    (handleBand h band).bootstrapBandCount = h.bootstrapBandCount ∧
      (handleBand h band).bandsCommitted = h.bandsCommitted := by
  unfold handleBand
  dsimp only
  repeat' split
  all_goals exact ⟨rfl,rfl⟩

theorem flightFirst {first band stage committed} {h : Handler} (flow : Flow first h committed)
    (free : h.parked = false) (now : h.processing = some (band, stage)) :
    band = first + committed.length := by
  have order := flow.order free
  have now : inFlight h = [band] := by rw [inFlight, now]; rfl
  have part : committed ++ [band] <+: List.range' first h.enqueuedBands := by
    rw [← order, now]
    exact ⟨h.queued ++ h.bandPipe, by simp⟩
  have whole := prefixRange part
  rw [List.length_append, List.length_singleton, List.range'_concat, Nat.one_mul] at whole
  exact List.singleton_inj.mp (List.append_inj_right' whole rfl)

theorem flowFree {first committed now} {h : Handler} (flow : Flow first h committed)
    (busy : h.processing = some now) : h.parked = false := by
  rw [← Bool.not_eq_true]
  intro parked
  rw [flow.stop parked] at busy
  contradiction

theorem readyCommit {first band stage} {w : World} (ready : Ready first w)
    (now : w.handler.processing = some (band, stage)) (short : w.handler.queued.length ≤ 1) :
    Ready first (commit w band) := by
  have flow := ready.flow
  have free := flowFree flow now
  have order := flow.order free
  rw [show inFlight w.handler = [band] by rw [inFlight, now]; rfl] at order
  have id := flightFirst flow free now
  have length : (w.committed ++ [band]).length = w.committed.length + 1 := List.length_append
  have counts := afterBandCounts
    { w.handler with bandCount := band + 1, bandsCommitted := band + 1 }
  refine ⟨afterBandFlow (fun _ => order) ?_ flow.stats fun _ => short, ?_, ?_, ?_⟩
  · exact ⟨_, (List.append_assoc _ _ _).symm.trans order⟩
  · show some (band + 1) = some (first + (w.committed ++ [band]).length)
    rw [length, id, Nat.add_assoc]
  · exact counts.1.trans ready.base
  · show _ = first + (w.committed ++ [band]).length
    rw [length, ← Nat.add_assoc, ← id]
    exact counts.2

theorem readyPark {first} {w : World} (ready : Ready first w) :
    Ready first { w with handler := park w.handler } := by
  have counts := afterBandCounts { w.handler with parked := true, statsParked := true }
  refine ⟨afterBandFlow (h := { w.handler with parked := true, statsParked := true })
    (fun free => ?_) ready.flow.done rfl fun free => ?_, ready.root, counts.1.trans ready.base, counts.2.trans ready.count⟩
  · exact absurd free.symm Bool.false_ne_true
  · exact absurd free.symm Bool.false_ne_true

theorem readyNext {first band stage next} {w : World} (ready : Ready first w)
    (now : w.handler.processing = some (band, stage)) :
    Ready first { w with handler.processing := some (band, next) } := by
  have flow := ready.flow
  refine ⟨⟨fun free => ?_, flow.done, flow.stats, ?_, fun none => ?_, fun parked => ?_⟩,
    ready.root, ready.base, ready.count⟩
  · rw [← flow.order free]
    simp [inFlight, now]
  · exact flow.flight.trans (by rw [now]; rfl)
  · exact absurd none (by simp)
  · rw [flow.stop parked] at now
    contradiction

theorem readyBand {first ok} {w : World} (ready : Ready first w)
    (short : StepSound w (.bandStep ok)) : Ready first (advanceBand w ok) := by
  unfold advanceBand
  split
  · exact ready
  rename_i band stage now
  cases ok with
  | false => exact readyPark ready
  | true =>
    cases stage with
    | dataObjects => exact readyNext ready now
    | bandManifest => exact readyNext ready now
    | rootManifest => exact readyCommit ready now (short (by rw [now]; rfl))

theorem readyEnqueue {first} {w : World} (ready : Ready first w) :
    Ready first (perform first w .enqueueBand) := by
  have flow := ready.flow
  have longer : List.range' first (w.handler.enqueuedBands + 1) =
      List.range' first w.handler.enqueuedBands ++ [first + w.handler.enqueuedBands] := by
    rw [List.range'_concat, Nat.one_mul]
  refine ⟨⟨fun free => ?_, ?_, flow.stats, flow.flight, flow.idle, flow.stop⟩,
    ready.root, ready.base, ready.count⟩
  · show w.committed ++ inFlight w.handler ++ w.handler.queued ++ (w.handler.bandPipe ++ [_]) =
      List.range' first (w.handler.enqueuedBands + 1)
    rw [longer, ← flow.order free, List.append_assoc _ w.handler.bandPipe]
  · show _ <+: List.range' first (w.handler.enqueuedBands + 1)
    rw [longer]
    exact flow.done.trans (List.prefix_append _ _)

theorem readyDeliver {first} {w : World} (ready : Ready first w) :
    Ready first (perform first w .deliver) := by
  have flow := ready.flow
  simp only [perform]
  split
  · exact ready
  rename_i band rest pipe
  have counts := handleBandCounts { w.handler with bandPipe := rest } band
  refine ⟨handleBandFlow (fun free => ?_) flow.done flow.stats flow.flight flow.idle flow.stop,
    ready.root, counts.1.trans ready.base, counts.2.trans ready.count⟩
  have order := flow.order free
  rw [pipe] at order
  rw [← order]
  simp [inFlight]

/-! ## The bootstrap -/

theorem freshReady {first n} {w : World} (handler : w.handler = { piped first n (seeded first) with bandsCommitted := first })
    (none : w.committed = []) (root : w.root = some first) : Ready first w := by
  obtain ⟨h, phase, bucket, committed⟩ := w
  subst handler none root
  exact ⟨⟨fun _ => rfl, List.nil_prefix, rfl, rfl, fun _ _ => rfl, fun _ => rfl⟩, rfl, rfl, rfl⟩

theorem readBandsInvariant {first n} {w : World} (handler : w.handler = piped first n (seeded first))
    (none : w.committed = []) (root : w.root = some first) (left : Nat) :
    Invariant first (readBands w left) := by
  cases left with
  | zero =>
    left
    refine ⟨rfl, freshReady (n := n) ?_ none root⟩
    simp [readBands, handler, seeded, piped]
  | succ left => exact Or.inr ⟨none, n, handler, root⟩

theorem waitingStep {first ok} {w : World} (waiting : Waiting first w)
    (pending : w.bootstrap ≠ .done ∧ w.bootstrap ≠ .failed) :
    Invariant first (advanceBootstrap w ok) := by
  obtain ⟨h, phase, root, committed⟩ := w
  obtain ⟨none, n, here⟩ := waiting
  dsimp only at none here pending
  subst none
  cases ok with
  | false =>
    refine Or.inr ⟨rfl, n, ?_⟩
    cases phase with
    | asking => exact Or.inl here.1
    | claiming => exact Or.inl here.1
    | reading => exact Or.inl here.1
    | bands left => exact Or.inr here.1
    | done => exact absurd rfl pending.1
    | failed => exact absurd rfl pending.2
  | true =>
    cases phase with
    | asking =>
      refine Or.inr ⟨rfl, n, ?_⟩
      cases root with
      | none => exact ⟨here.1, here.2.symm⟩
      | some count => exact ⟨here.1, congrArg some here.2⟩
    | claiming =>
      obtain ⟨rfl, rfl⟩ := here
      exact Or.inl ⟨rfl, freshReady (n := n) rfl rfl rfl⟩
    | reading =>
      obtain ⟨rfl, rfl⟩ := here
      exact readBandsInvariant (n := n) rfl rfl rfl first
    | bands left => exact readBandsInvariant here.1 rfl here.2 left
    | done => exact absurd rfl pending.1
    | failed => exact absurd rfl pending.2

-- Before the bootstrap is done, bands are only piled up in the pipe.
theorem waitingPiped {first} {w : World} (waiting : Waiting first w) :
    ∃ n, w.handler = piped first n .fresh ∨ w.handler = piped first n (seeded first) := by
  obtain ⟨h, phase, root, committed⟩ := w
  obtain ⟨_, n, here⟩ := waiting
  refine ⟨n, ?_⟩
  cases phase with
  | asking => exact Or.inl here.1
  | claiming => exact Or.inl here.1
  | reading => exact Or.inl here.1
  | bands left => exact Or.inr here.1
  | done => exact here.elim
  | failed => exact here

theorem pipedMore {first n h} {w : World} (same : w.handler = piped first n h) :
    (perform first w .enqueueBand).handler = piped first (n + 1) h := by
  simp only [perform, same, piped, List.range'_concat, Nat.one_mul]

theorem waitingEnqueue {first} {w : World} (waiting : Waiting first w) : Waiting first (perform first w .enqueueBand) := by
  obtain ⟨h, phase, root, committed⟩ := w
  obtain ⟨none, n, here⟩ := waiting
  refine ⟨none, n + 1, ?_⟩
  cases phase with
  | asking => exact ⟨pipedMore here.1, here.2⟩
  | claiming => exact ⟨pipedMore here.1, here.2⟩
  | reading => exact ⟨pipedMore here.1, here.2⟩
  | bands left => exact ⟨pipedMore here.1, here.2⟩
  | done => exact here.elim
  | failed => exact here.imp pipedMore pipedMore

/-! ## Runs -/

theorem runInvariant (root : Option Nat) :
    Inductive ((system root).under StepSound) (Invariant (root.getD 0)) := by
  constructor
  · intro w first
    cases first
    exact Or.inr ⟨rfl, 0, rfl, rfl⟩
  · intro w a after inv step
    obtain ⟨sound, allowed, rfl⟩ := step
    rcases inv with ⟨done, ready⟩ | waiting
    · cases a with
      | bootstrapStep ok => exact absurd done allowed.1
      | enqueueBand => exact Or.inl ⟨done, readyEnqueue ready⟩
      | deliver =>
        refine Or.inl ⟨?_, readyDeliver ready⟩
        simp only [perform]
        split <;> exact done
      | bandStep ok =>
        refine Or.inl ⟨?_, readyBand ready sound⟩
        simp only [perform, advanceBand, commit]
        repeat' split
        all_goals exact done
    · cases a with
      | bootstrapStep ok => exact waitingStep waiting allowed
      | enqueueBand => exact Or.inr (waitingEnqueue waiting)
      | deliver =>
        have done : w.bootstrap = .done := sound
        obtain ⟨_, _, never⟩ := waiting
        rw [done] at never
        exact never.elim
      | bandStep ok =>
        obtain ⟨n, same | same⟩ := waitingPiped waiting
        · exact absurd (congrArg Handler.processing same) allowed
        · exact absurd (congrArg Handler.processing same) allowed

structure CommittedInOrder (first : Nat) (w : World) : Prop where
  increasing : w.committed.Pairwise (· < ·)
  complete : w.committed <+: List.range' first w.handler.enqueuedBands
  drained : drained w.handler = true → w.handler.parked = true ∨
    w.committed = List.range' first w.handler.enqueuedBands
  settled : w.handler.processing = none → w.handler.bandPipe = [] → w.handler.parked = true ∨
    w.committed = List.range' first w.handler.enqueuedBands

theorem prefixFull {first n : Nat} {l : List Nat} (part : l <+: List.range' first n)
    (long : n ≤ l.length) : l = List.range' first n := by
  have short := part.length_le
  rw [List.length_range'] at short
  rw [prefixRange part, Nat.le_antisymm short long]

theorem invariantOrder {first} {w : World} (inv : Invariant first w) : CommittedInOrder first w := by
  rcases inv with ⟨_, ready⟩ | waiting
  · have flow := ready.flow
    refine ⟨?_, flow.done, fun full => ?_, fun none pipe => ?_⟩
    · rw [prefixRange flow.done]
      exact List.pairwise_lt_range'
    · simp only [UploadHandler.drained, Bool.or_eq_true, decide_eq_true_eq, flow.stats, ready.base,
        ready.count] at full
      rcases full with parked | counted
      · exact Or.inl parked
      · exact Or.inr (prefixFull flow.done (by omega))
    · cases free : w.handler.parked with
      | true => exact Or.inl rfl
      | false =>
        have order := flow.order free
        rw [flow.idle none free, pipe, show inFlight w.handler = [] by rw [inFlight, none]; rfl] at order
        exact Or.inr (by simpa using order)
  · have none : w.committed = [] := waiting.1
    obtain ⟨n, same⟩ := waitingPiped waiting
    have pipe : w.handler.bandPipe = List.range' first w.handler.enqueuedBands ∧ w.handler.statsParked = false ∧
        w.handler.bandsCommitted = 0 := by
      rcases same with same | same <;> rw [same] <;> exact ⟨rfl, rfl, rfl⟩
    refine ⟨by rw [none]; exact .nil, by rw [none]; exact List.nil_prefix, fun full => Or.inr ?_, fun _ empty => Or.inr ?_⟩
    · simp only [UploadHandler.drained, pipe.2.1, pipe.2.2, Bool.false_or, decide_eq_true_eq] at full
      rw [none, show w.handler.enqueuedBands = 0 by omega]
      rfl
    · rw [none, ← empty, pipe.1]

theorem bandsCommitInOrder (root : Option Nat) {w : World}
    (reach : Reachable ((system root).under StepSound) w) : CommittedInOrder (root.getD 0) w :=
  invariantOrder (reachableInvariant (runInvariant root) reach)

def processBand : List Action := [.bandStep true, .bandStep true, .bandStep true]

-- A resumed bucket with one band, and two more bands committed one after the other; the first of them is enqueued
-- while the bootstrap runs.
def resumedActions : List Action :=
  [.bootstrapStep true, .enqueueBand, .bootstrapStep true, .bootstrapStep true, .enqueueBand,
    .deliver, .deliver] ++ processBand ++ processBand

theorem resumedInOrder :
    CommittedInOrder 1 (resumedActions.foldl (perform 1) (start (some 1))) :=
  bandsCommitInOrder (some 1) (reachableAllowed (by decide))

/-! With two bands queued behind the one in flight, the first of them is pushed behind the second
and the second is committed first; the handler then counts itself drained. -/

def crowdedActions : List Action :=
  [.bootstrapStep true, .bootstrapStep true, .enqueueBand, .enqueueBand, .enqueueBand,
    .deliver, .deliver, .deliver] ++ processBand ++ processBand

theorem crowdedOutcome : let w := crowdedActions.foldl (perform 0) (start none)
    w.committed = [0, 2] ∧ drained w.handler = true ∧ w.handler.parked = false := by
  decide

theorem queuedBandOvertaken :
    ¬∀ root w, Reachable (system root) w → CommittedInOrder (root.getD 0) w := by
  intro all
  have run : AllAllowed (fun w a => True ∧ Allowed w a) (perform 0) (start none) crowdedActions := by
    decide
  have order : CommittedInOrder 0 (crowdedActions.foldl (perform 0) (start none)) :=
    all none _ (reachableUnder (reachableAllowed run))
  have last := order.complete
  rw [crowdedOutcome.1] at last
  exact absurd last (by decide)

end Dewfall.UploadRuns
