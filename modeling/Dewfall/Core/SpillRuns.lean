import Dewfall.Core.SpillStore
import Dewfall.General.Transition

/-! Spilling, dereferencing and the stages of a checkpoint, over whole runs and across crashes. The
gate lets one spill operation at a time be suspended; every object operation may fail, with or
without effect. One checkpoint runs at a time. Which local bytes are reclaimed is not treated. -/
namespace Dewfall.SpillRuns
open General General.Transition BlobResidency SpillStore

-- A call of `spill_blob`, by the spill pass or by a diverted write.
structure Job where
  offset : Nat
  data : List UInt8
  diverted : Bool
  deriving DecidableEq, Repr

-- A blob in a segment that its caller has not recorded yet.
structure Reservation where
  offset : Nat
  size : Nat
  remoteId : Nat
  diverted : Bool
  deriving DecidableEq, Repr

inductive Gate where
  | free
  | journaling (job : Job) (record : List Nat)
  | putting (reserved : Option Reservation)
  | sweeping (rest : List Nat)
  | sweepJournal (record : List Nat)
  | unjournaling
  deriving DecidableEq, Repr

inductive Stage where
  | idle
  | flushing (freed : List Nat) (clean : Bool)
  | writing (table : Table) (generation : Nat)
  | committed

structure World where
  residency : Residency
  store : Store
  segments : Nat → Option (List UInt8)
  journal : Option (List Nat)
  gate : Gate
  reserved : List Reservation
  stage : Stage
  committed : Table

def start : World :=
  ⟨BlobResidency.empty, fresh, fun _ => none, none, .free, [], .idle, emptyTable⟩

-- A failed put may still have stored the object.
inductive Put where
  | ok
  | failed (stored : Bool)
  deriving DecidableEq, Repr

def Put.stores : Put → Bool
  | .ok => true
  | .failed stored => stored

inductive Action where
  | spillBlob (job : Job)
  | journalPut (put : Put)
  | segmentPut (put : Put)
  | markReserved (index : Nat)
  | noteBlobUploaded (offset size remoteId : Nat)
  | writeIndex (freed : List Nat) (clean : Bool)
  | flush
  | abort
  | commit (settled : Bool)
  | sweep
  | removeSegment (removed : Bool)
  | finishRemoving
  | removeJournal (removed : Bool)
  | crash (removed : List Nat) (journalRemoved : Bool)
  deriving DecidableEq, Repr

variable (layout : Layout Nat Entry) (segmentTarget : Nat)

-- `spill_blob` from the append on.
def appendJob (w : World) (job : Job) : World :=
  let appended := appendBlob w.store job.data
  let reservation := ⟨job.offset, job.data.length, appended.2, job.diverted⟩
  if segmentTarget ≤ appended.1.openBuffer.length then
    { w with store := appended.1, gate := .putting (some reservation) }
  else { w with store := appended.1, gate := .free, reserved := w.reserved ++ [reservation] }

def spillBlob (w : World) (job : Job) : World :=
  let opened := { w with store := openSegment w.store }
  if opened.store.openJournaled then appendJob segmentTarget opened job
  else { opened with gate := .journaling job (journalRecord opened.store) }

def forgetFreed (r : Residency) (s : Store) : List Nat → Residency × Store
  | [] => (r, s)
  | offset :: rest =>
    match forget layout r offset with
    | none => forgetFreed r s rest
    | some (dropped, forgotten) =>
      forgetFreed dropped (if forgotten.spilled then deref s forgotten.remoteId else s) rest

-- The synchronous block of `write_index` behind the flush.
def snapshot (w : World) (freed : List Nat) (clean : Bool) : World :=
  let forgotten := forgetFreed layout w.residency w.store freed
  let advanced := serializeGeneration forgotten.1
  { w with
    residency := advanced.1
    store := forgotten.2
    stage := .writing (serialize advanced.1 clean) advanced.2 }

def journalPut (w : World) (put : Put) : World :=
  match w.gate with
  | .journaling job record =>
    let stored := { w with journal := if put.stores then some record else w.journal }
    if put = .ok then appendJob segmentTarget stored job else { stored with gate := .free }
  | .sweepJournal record =>
    { w with
      journal := if put.stores then some record else w.journal
      gate := .free
      stage := .idle }
  | _ => w

def storedSegments (w : World) (put : Put) : Nat → Option (List UInt8) :=
  if put.stores then Function.update w.segments w.store.openSeq (some (segmentBytes w.store))
  else w.segments

def segmentPut (w : World) (put : Put) : World :=
  let stored := { w with segments := storedSegments w put, gate := .free }
  match w.gate, w.stage with
  | .putting (some reservation), _ =>
    if put = .ok then { stored with
      store := flushed w.store
      reserved := w.reserved ++ [reservation] }
    else stored
  | .putting none, .flushing freed clean =>
    if put = .ok then snapshot layout { stored with store := flushed w.store } freed clean
    else { stored with stage := .idle }
  | _, _ => w

def markReserved (w : World) (index : Nat) : World :=
  match w.reserved[index]? with
  | none => w
  | some r =>
    let taken := { w with reserved := w.reserved.eraseIdx index }
    if r.diverted then
      { taken with residency := markSpilledRemote layout w.residency r.offset r.size r.remoteId }
    else if (find w.residency r.offset).isSome then { taken with store := deref w.store r.remoteId }
    else { taken with residency := markSpilled layout w.residency r.offset r.size r.remoteId }

def noteBlobUploaded (w : World) (offset size remoteId : Nat) : World :=
  let marked := markUploaded layout w.residency offset size remoteId
  { w with
    residency := marked.1
    store := if marked.2 = 0 then w.store else deref w.store marked.2 }

def flush (w : World) : World :=
  match w.stage with
  | .flushing freed clean =>
    if w.store.openBuffer = [] then snapshot layout w freed clean else { w with gate := .putting none }
  | _ => w

-- `settled` fails when a superseded range cannot be returned to the allocator.
def commit (w : World) (settled : Bool) : World :=
  match w.stage with
  | .writing table generation =>
    if settled then { w with
      committed := table
      residency := commitDurable w.residency generation
      stage := .committed }
    else { w with committed := table, stage := .idle }
  | _ => w

def removeSegment (w : World) (removed : Bool) : World :=
  match w.gate with
  | .sweeping (seq :: rest) =>
    { w with
      segments := if removed then Function.update w.segments seq none else w.segments
      gate := .sweeping rest }
  | _ => w

def finishRemoving (w : World) : World :=
  let swept := { w with store := endSweep w.store }
  if w.store.openBuffer = [] then { swept with gate := .unjournaling }
  else { swept with gate := .sweepJournal (journalRecord swept.store) }

def reopened (w : World) (removed : List Nat) (journalRemoved : Bool) : World where
  residency := deserialize w.committed
  store := restoreJournaled (replay (deserialize w.committed)) (w.journal.getD [])
  segments seq := if seq ∈ removed then none else w.segments seq
  journal := if journalRemoved then none else w.journal
  gate := .free
  reserved := []
  stage := .idle
  committed := w.committed

def perform (w : World) : Action → World
  | .spillBlob job => spillBlob segmentTarget w job
  | .journalPut put => journalPut segmentTarget w put
  | .segmentPut put => segmentPut layout w put
  | .markReserved index => markReserved layout w index
  | .noteBlobUploaded offset size remoteId => noteBlobUploaded layout w offset size remoteId
  | .writeIndex freed clean => { w with stage := .flushing freed clean }
  | .flush => flush layout w
  | .abort => { w with stage := .idle }
  | .commit settled => commit w settled
  | .sweep => { w with store := startSweep w.store, gate := .sweeping w.store.deadSegments }
  | .removeSegment removed => removeSegment w removed
  | .finishRemoving => finishRemoving w
  | .removeJournal removed =>
    { w with journal := if removed then none else w.journal, gate := .free, stage := .idle }
  | .crash removed journalRemoved => reopened w removed journalRemoved

def Stage.isIdle : Stage → Bool
  | .idle => true
  | _ => false

def Stage.isFlushing : Stage → Bool
  | .flushing _ _ => true
  | _ => false

def Stage.isWriting : Stage → Bool
  | .writing _ _ => true
  | _ => false

def Stage.isCommitted : Stage → Bool
  | .committed => true
  | _ => false

def Gate.isJournal : Gate → Bool
  | .journaling _ _ | .sweepJournal _ => true
  | _ => false

def Gate.isPut : Gate → Bool
  | .putting _ => true
  | _ => false

def Gate.isSweeping : Gate → Bool
  | .sweeping _ => true
  | _ => false

def Gate.isRemoving : Gate → Bool
  | .sweeping (_ :: _) => true
  | _ => false

-- A segment number is taken and nothing is appended yet.
def Gate.isOpening : Gate → Bool
  | .journaling _ _ => true
  | _ => false

def Mentions (table : Table) (seq : Nat) : Prop :=
  ∃ e ∈ table.rows.entries, e.2.state.spilled = true ∧ spillSegmentOf e.2.remoteId = seq

instance (table seq) : Decidable (Mentions table seq) := by unfold Mentions; infer_instance

-- Blobs are not empty. After a crash only journaled segments without a reference are collected.
def Allowed (w : World) : Action → Prop
  | .spillBlob job => w.gate = .free ∧ job.data ≠ []
  | .journalPut _ => w.gate.isJournal = true
  | .segmentPut _ => w.gate.isPut = true
  | .markReserved index => index < w.reserved.length
  | .noteBlobUploaded _ _ _ => True
  | .writeIndex _ _ => w.stage.isIdle = true
  | .flush => w.gate = .free ∧ w.stage.isFlushing = true
  | .abort | .commit _ => w.stage.isWriting = true
  | .sweep => w.gate = .free ∧ w.stage.isCommitted = true
  | .removeSegment _ => w.gate.isRemoving = true
  | .finishRemoving => w.gate = .sweeping []
  | .removeJournal _ => w.gate = .unjournaling
  | .crash removed _ => ∀ seq ∈ removed, seq ∈ w.journal.getD [] ∧ ¬Mentions w.committed seq

instance (w a) : Decidable (Allowed w a) := by
  cases a <;> dsimp only [Allowed] <;> infer_instance

def system : System World Action :=
  System.ofFunction start Allowed (perform layout segmentTarget)

-- The last reference to a segment of the committed table is not dropped before its sweep is over,
-- and no segment dies while the dead ones are being removed. An offset keeps its blob's size.
def DerefSound (w : World) (remoteId : Nat) : Prop :=
  Kills w.store remoteId → w.gate.isSweeping = false ∧
    (w.stage.isCommitted = true → ¬Mentions w.committed (spillSegmentOf remoteId))

instance (w remoteId) : Decidable (DerefSound w remoteId) := by unfold DerefSound; infer_instance

def pendingTable (w : World) : Table :=
  match w.stage with
  | .writing table _ => table
  | _ => emptyTable

def StepSound (w : World) : Action → Prop
  | .spillBlob job => w.store.openBuffer.length + job.data.length < 2 ^ 32 ∧
      (w.store.openBuffer = [] → w.store.nextSeq + 1 < 2 ^ 32)
  | .markReserved index => ∀ r ∈ w.reserved[index]?, ∀ e ∈ find w.residency r.offset,
      if r.diverted then e.size = r.size else DerefSound w r.remoteId
  | .noteBlobUploaded offset size _ =>
      DerefSound w (spillReference (getOrCreate w.residency offset size))
  | .commit settled => settled = true → ∀ seq ∈ w.store.deadSegments, ¬Mentions (pendingTable w) seq
  | _ => True

instance (w a) : Decidable (StepSound w a) := by
  cases a <;> dsimp only [StepSound] <;> infer_instance

def InSegment (w : World) (remoteId size : Nat) : Prop :=
  ∃ bytes ∈ w.segments (spillSegmentOf remoteId), spillOffsetOf remoteId + size ≤ bytes.length

def TableBacked (w : World) : Prop :=
  ∀ offset row, w.committed.rows.find offset = some row → row.state.spilled = true →
    InSegment w row.remoteId row.size

/-! ## The invariant -/

-- No byte will be appended to the segment any more.
def Closed (w : World) (seq : Nat) : Prop :=
  seq < w.store.nextSeq ∧
    (seq = w.store.openSeq → w.store.openBuffer = [] ∧ w.gate.isOpening = false)

def Open (w : World) (remoteId size : Nat) : Prop :=
  spillSegmentOf remoteId = w.store.openSeq ∧ w.store.openBuffer ≠ [] ∧
    spillOffsetOf remoteId + size ≤ w.store.openBuffer.length

def Held (w : World) (remoteId size : Nat) : Prop :=
  (Closed w (spillSegmentOf remoteId) ∧ InSegment w remoteId size) ∨ Open w remoteId size

def outstanding (w : World) : List Reservation :=
  w.reserved ++ match w.gate with
    | .putting (some r) => [r]
    | _ => []

def Current (w : World) (remoteId size : Nat) : Prop :=
  (∃ offset e, find w.residency offset = some e ∧ e.state.spilled = true ∧ e.remoteId = remoteId ∧
      e.size = size) ∨
    ∃ r ∈ outstanding w, r.remoteId = remoteId ∧ r.size = size

def Kept (w : World) (table : Table) : Prop :=
  table = w.committed ∨ ∃ generation, w.stage = .writing table generation

def TableStored (w : World) (table : Table) : Prop :=
  ∀ offset row, table.rows.find offset = some row → row.state.spilled = true →
    Closed w (spillSegmentOf row.remoteId) ∧ InSegment w row.remoteId row.size

def references (w : World) (seq : Nat) : Nat :=
  w.residency.map.total (refers seq) +
    (outstanding w).countP fun r => spillSegmentOf r.remoteId = seq

structure Shape (w : World) : Prop where
  next : w.store.nextSeq < 2 ^ 32
  opened : w.store.openSeq < w.store.nextSeq
  small : w.store.openBuffer.length < 2 ^ 32
  journaled : w.store.openBuffer ≠ [] → w.store.openJournaled = true ∧ w.gate.isOpening = false
  opening : ∀ job record, w.gate = .journaling job record → job.data ≠ [] ∧ job.data.length < 2 ^ 32
  putting : w.gate.isPut = true → w.store.openBuffer ≠ []

structure Invariant (w : World) : Prop where
  shape : Shape w
  counts : ∀ seq, references w seq ≤ w.store.liveCounts seq
  held : ∀ remoteId size, Current w remoteId size → Held w remoteId size
  tables : ∀ table, Kept w table → TableStored w table
  dead : ∀ seq ∈ w.store.deadSegments, w.store.liveCounts seq = 0 ∧ Closed w seq
  clean : w.stage.isCommitted = true → ∀ seq ∈ w.store.deadSegments, ¬Mentions w.committed seq
  sweeping : ∀ rest, w.gate = .sweeping rest →
    w.stage.isCommitted = true ∧ ∀ seq ∈ rest, seq ∈ w.store.deadSegments

theorem startInvariant : Invariant start := by
  have absent : ∀ offset, find start.residency offset = none := fun _ => rfl
  constructor
  · refine ⟨by decide, by decide, by decide, by decide, ?_, by decide⟩
    intro job record journaling
    cases journaling
  · exact fun seq => Nat.le_refl 0
  · rintro remoteId size (⟨offset, e, found, _⟩ | ⟨r, mem, _⟩)
    · rw [absent] at found
      contradiction
    · cases mem
  · rintro table (rfl | ⟨generation, writing⟩)
    · intro offset row found
      cases found
    · cases writing
  · intro seq mem
    cases mem
  · intro committed
    cases committed
  · intro rest sweeping
    cases sweeping

-- A step that removes no segment and reopens none.
structure Moves (w after : World) : Prop where
  closed : ∀ seq, Closed w seq → Closed after seq
  segments : ∀ seq, Closed w seq → after.segments seq = w.segments seq
  opened : ∀ remoteId size, Open w remoteId size → Held after remoteId size

theorem inSegmentMoves {w after remoteId size} (moves : Moves w after)
    (closed : Closed w (spillSegmentOf remoteId)) (inside : InSegment w remoteId size) :
    InSegment after remoteId size := by
  unfold InSegment at *
  rwa [moves.segments _ closed]

theorem heldMoves {w after remoteId size} (moves : Moves w after) (held : Held w remoteId size) :
    Held after remoteId size := by
  rcases held with ⟨closed, inside⟩ | opened
  · exact Or.inl ⟨moves.closed _ closed, inSegmentMoves moves closed inside⟩
  · exact moves.opened remoteId size opened

theorem tableMoves {w after table} (moves : Moves w after) (stored : TableStored w table) :
    TableStored after table := by
  intro offset row found spilled
  obtain ⟨closed, inside⟩ := stored offset row found spilled
  exact ⟨moves.closed _ closed, inSegmentMoves moves closed inside⟩

theorem heldFrame {w after : World} (buffer : after.store.openBuffer = w.store.openBuffer)
    (seq : after.store.openSeq = w.store.openSeq) (next : after.store.nextSeq = w.store.nextSeq)
    (segments : after.segments = w.segments)
    (opening : after.gate.isOpening = true → w.gate.isOpening = true) : Moves w after := by
  refine ⟨fun s closed => ?_, fun s _ => by rw [segments], fun remoteId size opened => ?_⟩
  · unfold Closed at *
    rw [buffer, seq, next]
    refine ⟨closed.1, fun same => ⟨(closed.2 same).1, ?_⟩⟩
    rw [← Bool.not_eq_true]
    intro now
    exact absurd ((closed.2 same).2.symm.trans (opening now)) Bool.false_ne_true
  · refine Or.inr ?_
    unfold Open at *
    rw [buffer, seq]
    exact opened

theorem movesInvariant {w after} (inv : Invariant w) (moves : Moves w after) (shape : Shape after)
    (counts : ∀ seq, references after seq ≤ after.store.liveCounts seq)
    (current : ∀ remoteId size, Current after remoteId size →
      Current w remoteId size ∨ Held after remoteId size)
    (kept : ∀ table, Kept after table → Kept w table ∨ TableStored after table)
    (dead : ∀ seq ∈ after.store.deadSegments, after.store.liveCounts seq = 0 ∧
      (seq ∈ w.store.deadSegments ∨ Closed after seq))
    (clean : after.stage.isCommitted = true →
      ∀ seq ∈ after.store.deadSegments, ¬Mentions after.committed seq)
    (sweeping : ∀ rest, after.gate = .sweeping rest → after.stage.isCommitted = true ∧
      ∀ seq ∈ rest, seq ∈ after.store.deadSegments) : Invariant after := by
  refine ⟨shape, counts, ?_, ?_, ?_, clean, sweeping⟩
  · intro remoteId size now
    rcases current remoteId size now with before | held
    · exact heldMoves moves (inv.held remoteId size before)
    · exact held
  · intro table now
    rcases kept table now with before | stored
    · exact tableMoves moves (inv.tables table before)
    · exact stored
  · intro seq mem
    obtain ⟨zero, before | closed⟩ := dead seq mem
    · exact ⟨zero, moves.closed seq (inv.dead seq before).2⟩
    · exact ⟨zero, closed⟩

/-! ## Filling a segment -/

variable {layout segmentTarget}

theorem openApart {w : World} (filling : w.store.openBuffer ≠ [] ∨ w.gate.isOpening = true) :
    ¬Closed w w.store.openSeq := by
  rintro ⟨_, closed⟩
  obtain ⟨empty, still⟩ := closed rfl
  rcases filling with bytes | opening
  · exact bytes empty
  · exact absurd (still.symm.trans opening) Bool.false_ne_true

theorem openInvariant {w job} (inv : Invariant w) (free : w.gate = .free)
    (empty : w.store.openBuffer = []) (room : w.store.nextSeq + 1 < 2 ^ 32)
    (data : job.data ≠ [] ∧ job.data.length < 2 ^ 32) (record : List Nat) :
    Invariant { w with store := openSegment w.store, gate := .journaling job record } := by
  have next : u32 (w.store.nextSeq + 1) = w.store.nextSeq + 1 := u32Small room
  simp only [SpillStore.openSegment, empty, if_true, next]
  refine movesInvariant inv ⟨?_, fun _ _ => rfl, ?_⟩ ?_ ?_ ?_ (fun _ h => Or.inl h) ?_ inv.clean ?_
  · intro seq closed
    refine ⟨Nat.lt_succ_of_lt closed.1, fun same => ?_⟩
    exact absurd same (Nat.ne_of_lt closed.1)
  · intro remoteId size opened
    exact absurd empty opened.2.1
  · refine ⟨room, Nat.lt_succ_self _, by simp, fun bytes => absurd rfl bytes, ?_, ?_⟩
    · rintro _ _ ⟨rfl, rfl⟩
      exact data
    · intro put
      cases put
  · intro seq
    have before := inv.counts seq
    simp only [references, outstanding, free] at before ⊢
    exact before
  · intro remoteId size now
    simp only [Current, outstanding, free] at now ⊢
    exact Or.inl now
  · intro seq mem
    exact ⟨(inv.dead seq mem).1, Or.inl mem⟩
  · intro rest sweeping
    cases sweeping

theorem appendInvariant {w after : World} {job : Job} {r : Reservation} (inv : Invariant w)
    (apart : ¬Closed w w.store.openSeq) (data : job.data ≠ [])
    (fits : w.store.openBuffer.length + job.data.length < 2 ^ 32)
    (reservation : r.size = job.data.length ∧ r.remoteId = (appendBlob w.store job.data).2)
    (residency : after.residency = w.residency) (store : after.store = (appendBlob w.store job.data).1)
    (segments : after.segments = w.segments) (stage : after.stage = w.stage)
    (committed : after.committed = w.committed)
    (opening : after.gate.isOpening = false) (sweeping : after.gate.isSweeping = false)
    (pending : outstanding after = outstanding w ++ [r]) : Invariant after := by
  have small : u32 w.store.openBuffer.length = w.store.openBuffer.length := u32Small inv.shape.small
  have bound : w.store.openBuffer.length < 2 ^ 32 := inv.shape.small
  have seq : spillSegmentOf r.remoteId = w.store.openSeq := by
    rw [reservation.2, appendBlob, small]
    exact segmentLocator bound
  have offset : spillOffsetOf r.remoteId = w.store.openBuffer.length := by
    rw [reservation.2, appendBlob, small]
    exact offsetLocator bound
  have bytes : after.store.openBuffer = w.store.openBuffer ++ job.data := by rw [store]; rfl
  have same : after.store.openSeq = w.store.openSeq := by rw [store]; rfl
  have next : after.store.nextSeq = w.store.nextSeq := by rw [store]; rfl
  have nonempty : after.store.openBuffer ≠ [] := by
    rw [bytes]
    exact fun none => data (List.append_eq_nil_iff.mp none).2
  have other : ∀ seq, Closed w seq → seq ≠ w.store.openSeq := by
    rintro seq closed rfl
    exact apart closed
  refine movesInvariant inv ⟨?_, fun _ _ => by rw [segments], ?_⟩ ?_ ?_ ?_ ?_ ?_ ?_ ?_
  · intro seq closed
    refine ⟨next ▸ closed.1, fun equal => ?_⟩
    exact absurd (equal.trans same) (other seq closed)
  · intro remoteId size opened
    refine Or.inr ⟨same ▸ opened.1, nonempty, ?_⟩
    rw [bytes, List.length_append]
    exact Nat.le_add_right_of_le opened.2.2
  · refine ⟨next ▸ inv.shape.next, ?_, ?_, fun _ => ⟨?_, opening⟩, ?_, fun _ => nonempty⟩
    · rw [same, next]
      exact inv.shape.opened
    · rw [bytes, List.length_append]
      exact fits
    · rw [store]
      rfl
    · intro job record journaling
      rw [journaling] at opening
      cases opening
  · intro s
    have before := inv.counts s
    have count : after.store.liveCounts s =
        w.store.liveCounts s + if w.store.openSeq = s then 1 else 0 := by
      rw [store]
      by_cases equal : s = w.store.openSeq
      · simp [appendBlob, equal]
      · simp [appendBlob, Function.update_of_ne equal, Ne.symm equal]
    have more : references after s = references w s + if w.store.openSeq = s then 1 else 0 := by
      unfold references
      rw [residency, pending, List.countP_append, List.countP_singleton, seq]
      simp only [decide_eq_true_eq]
      exact (Nat.add_assoc _ _ _).symm
    rw [more, count]
    exact Nat.add_le_add_right before _
  · rintro remoteId size (entry | ⟨reserved, mem, known⟩)
    · exact Or.inl (Or.inl (residency ▸ entry))
    · rw [pending] at mem
      rcases List.mem_append.mp mem with earlier | new
      · exact Or.inl (Or.inr ⟨reserved, earlier, known⟩)
      · rw [List.mem_singleton.mp new] at known
        obtain ⟨rfl, rfl⟩ := known
        refine Or.inr (Or.inr ⟨seq.trans same.symm, nonempty, ?_⟩)
        rw [offset, reservation.1, bytes, List.length_append]
  · intro table kept
    refine Or.inl ?_
    unfold Kept at *
    rwa [committed, stage] at kept
  · intro s mem
    rw [store] at mem ⊢
    obtain ⟨zero, closed⟩ := inv.dead s mem
    refine ⟨?_, Or.inl mem⟩
    simp only [appendBlob, Function.update_of_ne (other s closed), zero]
  · rw [stage, committed, store]
    exact inv.clean
  · intro rest swept
    rw [swept] at sweeping
    cases sweeping

theorem appendJobInvariant {w job} (inv : Invariant w)
    (gate : w.gate = .free ∨ ∃ record, w.gate = .journaling job record)
    (filling : w.store.openBuffer ≠ [] ∨ w.gate.isOpening = true) (data : job.data ≠ [])
    (fits : w.store.openBuffer.length + job.data.length < 2 ^ 32) :
    Invariant (appendJob segmentTarget w job) := by
  have nobody : outstanding w = w.reserved := by
    rcases gate with free | ⟨record, journaling⟩
    · simp [outstanding, free]
    · simp [outstanding, journaling]
  let r : Reservation := ⟨job.offset, job.data.length, (appendBlob w.store job.data).2, job.diverted⟩
  unfold appendJob
  dsimp only
  split
  · refine @appendInvariant w _ job r inv (openApart filling) data fits ⟨rfl, rfl⟩ rfl rfl rfl rfl rfl
      rfl rfl ?_
    rw [nobody]
    rfl
  · refine @appendInvariant w _ job r inv (openApart filling) data fits ⟨rfl, rfl⟩ rfl rfl rfl rfl rfl
      rfl rfl ?_
    rw [nobody]
    simp only [outstanding, List.append_nil, r]

theorem spillBlobInvariant {w job} (inv : Invariant w) (free : w.gate = .free) (data : job.data ≠ [])
    (fits : w.store.openBuffer.length + job.data.length < 2 ^ 32)
    (room : w.store.openBuffer = [] → w.store.nextSeq + 1 < 2 ^ 32) :
    Invariant (spillBlob segmentTarget w job) := by
  unfold spillBlob
  by_cases empty : w.store.openBuffer = []
  · have unjournaled : (openSegment w.store).openJournaled = false := by simp [SpillStore.openSegment, empty]
    simp only [unjournaled, Bool.false_eq_true, if_false]
    refine openInvariant inv free empty (room empty) ⟨data, ?_⟩ _
    simpa [empty] using fits
  · have same : openSegment w.store = w.store := by simp [SpillStore.openSegment, empty]
    simp only [same, (inv.shape.journaled empty).1, if_true]
    exact appendJobInvariant inv (Or.inl free) (Or.inl empty) data fits

-- What only moves the gate and the journal between spill operations.
theorem releaseInvariant {w after : World} (inv : Invariant w)
    (residency : after.residency = w.residency) (store : after.store = w.store)
    (segments : after.segments = w.segments) (reserved : after.reserved = w.reserved)
    (stage : after.stage = w.stage ∨ after.stage = .idle) (committed : after.committed = w.committed)
    (gate : after.gate = .free ∨ after.gate = w.gate ∧ after.gate.isJournal = true) :
    Invariant after := by
  have opening : after.gate.isOpening = true → w.gate.isOpening = true := by
    intro now
    rcases gate with free | ⟨same, _⟩
    · rw [free] at now
      cases now
    · exact same ▸ now
  have fewer : outstanding after = w.reserved := by
    rcases gate with free | ⟨_, journal⟩
    · simp [outstanding, free, reserved]
    · unfold outstanding
      split
      · rename_i put
        rw [put] at journal
        cases journal
      · rw [List.append_nil, reserved]
  have moves : Moves w after := heldFrame (by rw [store]) (by rw [store]) (by rw [store]) segments opening
  refine movesInvariant inv moves ⟨?_, ?_, ?_, ?_, ?_, ?_⟩ ?_ ?_ ?_ ?_ ?_ ?_
  · exact store ▸ inv.shape.next
  · exact store ▸ inv.shape.opened
  · exact store ▸ inv.shape.small
  · intro bytes
    rw [store] at bytes ⊢
    obtain ⟨journaled, still⟩ := inv.shape.journaled bytes
    refine ⟨journaled, ?_⟩
    rw [← Bool.not_eq_true]
    intro now
    exact absurd (still.symm.trans (opening now)) Bool.false_ne_true
  · intro job record journaling
    rcases gate with free | ⟨same, _⟩
    · rw [free] at journaling
      cases journaling
    · exact inv.shape.opening job record (same ▸ journaling)
  · intro put
    rcases gate with free | ⟨_, journal⟩
    · rw [free] at put
      cases put
    · cases kind : after.gate with
      | putting r =>
        rw [kind] at journal
        cases journal
      | _ =>
        rw [kind] at put
        cases put
  · intro seq
    refine Nat.le_trans ?_ (store ▸ inv.counts seq)
    unfold references
    rw [residency, fewer]
    refine Nat.add_le_add_left ?_ _
    unfold outstanding
    rw [List.countP_append]
    exact Nat.le_add_right _ _
  · rintro remoteId size (entry | ⟨r, mem, known⟩)
    · exact Or.inl (Or.inl (residency ▸ entry))
    · rw [fewer] at mem
      exact Or.inl (Or.inr ⟨r, List.mem_append_left _ mem, known⟩)
  · rintro table (same | ⟨generation, writing⟩)
    · exact Or.inl (Or.inl (same.trans committed))
    · rcases stage with same | idle
      · exact Or.inl (Or.inr ⟨generation, same ▸ writing⟩)
      · rw [idle] at writing
        cases writing
  · intro seq mem
    rw [store] at mem ⊢
    exact ⟨(inv.dead seq mem).1, Or.inl mem⟩
  · intro done
    rw [committed, store]
    rcases stage with same | idle
    · exact inv.clean (same ▸ done)
    · rw [idle] at done
      cases done
  · intro rest sweeping
    rcases gate with free | ⟨_, journal⟩
    · rw [free] at sweeping
      cases sweeping
    · rw [sweeping] at journal
      cases journal

theorem journalPutInvariant {w put} (inv : Invariant w) :
    Invariant (journalPut segmentTarget w put) := by
  unfold journalPut
  split
  · rename_i job record gate
    have opening : w.gate.isOpening = true := by rw [gate]; rfl
    obtain ⟨data, fits⟩ := inv.shape.opening job record gate
    have empty : w.store.openBuffer = [] := by
      by_contra bytes
      exact absurd ((inv.shape.journaled bytes).2.symm.trans opening) Bool.false_ne_true
    dsimp only
    split
    · refine appendJobInvariant ?_ (Or.inr ⟨record, gate⟩) (Or.inr opening) data ?_
      · refine releaseInvariant inv rfl rfl rfl rfl (Or.inl rfl) rfl (Or.inr ⟨rfl, ?_⟩)
        rw [gate]
        rfl
      · simpa [empty] using fits
    · exact releaseInvariant inv rfl rfl rfl rfl (Or.inl rfl) rfl (Or.inl rfl)
  · exact releaseInvariant inv rfl rfl rfl rfl (Or.inr rfl) rfl (Or.inl rfl)
  · exact inv

/-! ## Closing a segment -/

theorem wholeSegment {w : World} (inv : Invariant w) : segmentBytes w.store = w.store.openBuffer := by
  unfold segmentBytes
  rw [u32Small inv.shape.small, List.take_length]

theorem segmentStored {w : World} (put : Put)
    (bytes : w.store.openBuffer ≠ []) (seq : Nat) (closed : Closed w seq) :
    storedSegments w put seq = w.segments seq := by
  have other : seq ≠ w.store.openSeq := by
    rintro rfl
    exact openApart (Or.inl bytes) closed
  unfold storedSegments
  split
  · exact Function.update_of_ne other _ _
  · rfl

theorem segmentFailedInvariant {w after : World} {put} (inv : Invariant w)
    (bytes : w.store.openBuffer ≠ []) (residency : after.residency = w.residency)
    (store : after.store = w.store) (segments : after.segments = storedSegments w put)
    (reserved : after.reserved = w.reserved) (stage : after.stage = w.stage ∨ after.stage = .idle)
    (committed : after.committed = w.committed) (gate : after.gate = .free) : Invariant after := by
  have between : Invariant { w with segments := storedSegments w put } := by
    refine movesInvariant inv ⟨fun _ closed => closed, segmentStored put bytes, fun _ _ opened => ?_⟩
      ⟨inv.shape.next,inv.shape.opened,inv.shape.small,inv.shape.journaled,inv.shape.opening,
        inv.shape.putting⟩
      inv.counts (fun _ _ now => Or.inl now) (fun _ kept => Or.inl kept) ?_ inv.clean inv.sweeping
    · exact Or.inr opened
    · intro seq mem
      exact ⟨(inv.dead seq mem).1, Or.inl mem⟩
  exact releaseInvariant between residency store segments reserved stage committed (Or.inl gate)

theorem flushedInvariant {w after : World} (inv : Invariant w) (bytes : w.store.openBuffer ≠ [])
    (residency : after.residency = w.residency) (store : after.store = flushed w.store)
    (segments : after.segments = storedSegments w .ok) (pending : outstanding after = outstanding w)
    (stage : after.stage = w.stage) (committed : after.committed = w.committed)
    (gate : after.gate = .free) : Invariant after := by
  have next : after.store.nextSeq = w.store.nextSeq := by rw [store]; rfl
  have seq : after.store.openSeq = w.store.openSeq := by rw [store]; rfl
  have empty : after.store.openBuffer = [] := by rw [store]; rfl
  have still : after.gate.isOpening = false := by rw [gate]; rfl
  have dead : after.store.deadSegments = w.store.deadSegments := by rw [store]; rfl
  have live : after.store.liveCounts = w.store.liveCounts := by rw [store]; rfl
  refine movesInvariant inv ⟨?_, ?_, ?_⟩ ⟨?_, ?_, ?_, ?_, ?_, ?_⟩ ?_ ?_ ?_ ?_ ?_ ?_
  · intro s closed
    exact ⟨next ▸ closed.1, fun _ => ⟨empty, still⟩⟩
  · intro s closed
    rw [segments]
    exact segmentStored .ok bytes s closed
  · intro remoteId size opened
    refine Or.inl ⟨⟨?_, fun _ => ⟨empty, still⟩⟩, w.store.openBuffer, ?_, opened.2.2⟩
    · rw [next, opened.1]
      exact inv.shape.opened
    · rw [segments, opened.1]
      simp [storedSegments, Put.stores, wholeSegment inv]
  · exact next ▸ inv.shape.next
  · rw [seq, next]
    exact inv.shape.opened
  · rw [empty]
    decide
  · exact fun nonempty => absurd empty nonempty
  · intro job record journaling
    rw [gate] at journaling
    cases journaling
  · intro put
    rw [gate] at put
    cases put
  · intro s
    have before := inv.counts s
    unfold references at before ⊢
    rw [residency, pending, live]
    exact before
  · intro remoteId size now
    unfold Current at now ⊢
    rw [residency, pending] at now
    exact Or.inl now
  · intro table kept
    unfold Kept at *
    rw [committed, stage] at kept
    exact Or.inl kept
  · intro s mem
    rw [dead] at mem
    rw [live]
    exact ⟨(inv.dead s mem).1, Or.inl mem⟩
  · rw [stage, committed, dead]
    exact inv.clean
  · intro rest sweeping
    rw [gate] at sweeping
    cases sweeping

/-! ## Recording and dropping references -/

theorem killsClosed {w remoteId size} (held : Held w remoteId size) (kills : Kills w.store remoteId) :
    Closed w (spillSegmentOf remoteId) := by
  rcases held with ⟨closed, _⟩ | opened
  · exact closed
  · exact absurd ⟨opened.1, opened.2.1⟩ kills.2

theorem relabelInvariant {w after : World} (inv : Invariant w) (store : after.store = w.store)
    (segments : after.segments = w.segments) (stage : after.stage = w.stage)
    (committed : after.committed = w.committed) (gate : after.gate = w.gate)
    (counts : ∀ seq, references after seq ≤ references w seq)
    (current : ∀ remoteId size, Current after remoteId size → Current w remoteId size) :
    Invariant after := by
  have moves : Moves w after := heldFrame (by rw [store]) (by rw [store]) (by rw [store]) segments
    (fun opening => gate ▸ opening)
  refine movesInvariant inv moves ⟨?_, ?_, ?_, ?_, ?_, ?_⟩ ?_ (fun _ _ now => Or.inl (current _ _ now))
    ?_ ?_ ?_ ?_
  · exact store ▸ inv.shape.next
  · exact store ▸ inv.shape.opened
  · exact store ▸ inv.shape.small
  · rw [store, gate]
    exact inv.shape.journaled
  · rw [gate]
    exact inv.shape.opening
  · rw [store, gate]
    exact inv.shape.putting
  · intro seq
    rw [store]
    exact Nat.le_trans (counts seq) (inv.counts seq)
  · intro table kept
    unfold Kept at *
    rw [committed, stage] at kept
    exact Or.inl kept
  · intro seq mem
    rw [store] at mem ⊢
    exact ⟨(inv.dead seq mem).1, Or.inl mem⟩
  · rw [stage, committed, store]
    exact inv.clean
  · rw [gate, stage, store]
    exact inv.sweeping

theorem derefInvariant {w after : World} {remoteId size} (inv : Invariant w)
    (held : Held w remoteId size) (store : after.store = deref w.store remoteId)
    (segments : after.segments = w.segments) (stage : after.stage = w.stage)
    (committed : after.committed = w.committed) (gate : after.gate = w.gate)
    (counts : ∀ seq, references after seq + (if seq = spillSegmentOf remoteId then 1 else 0) ≤
      references w seq)
    (current : ∀ id size, Current after id size → Current w id size)
    (sound : Kills w.store remoteId → w.stage.isCommitted = true →
      ¬Mentions w.committed (spillSegmentOf remoteId)) : Invariant after := by
  obtain ⟨buffer, openSeq, next⟩ := derefFrame w.store remoteId
  rw [← store] at buffer openSeq next
  have live := derefCounts w.store remoteId
  rw [← store] at live
  have dead := derefDead w.store remoteId
  rw [← store] at dead
  have moves : Moves w after := heldFrame buffer openSeq next segments (fun opening => gate ▸ opening)
  have split : ∀ seq ∈ after.store.deadSegments, seq ∈ w.store.deadSegments ∨
      Kills w.store remoteId ∧ seq = spillSegmentOf remoteId := by
    intro seq mem
    rw [dead, List.mem_append] at mem
    refine mem.imp_right fun new => ?_
    split at new
    · rename_i kills
      exact ⟨kills, List.mem_singleton.mp new⟩
    · cases new
  have journaled : (deref w.store remoteId).openJournaled = w.store.openJournaled := by
    unfold deref
    dsimp only
    repeat' split
    all_goals rfl
  refine movesInvariant inv moves ⟨?_, ?_, ?_, ?_, ?_, ?_⟩ ?_ (fun _ _ now => Or.inl (current _ _ now))
    ?_ ?_ ?_ ?_
  · exact next ▸ inv.shape.next
  · rw [openSeq, next]
    exact inv.shape.opened
  · exact buffer ▸ inv.shape.small
  · rw [buffer, gate, store, journaled]
    exact inv.shape.journaled
  · rw [gate]
    exact inv.shape.opening
  · rw [buffer, gate]
    exact inv.shape.putting
  · intro seq
    have before := Nat.le_trans (counts seq) (inv.counts seq)
    rw [live]
    omega
  · intro table kept
    unfold Kept at *
    rw [committed, stage] at kept
    exact Or.inl kept
  · intro seq mem
    rcases split seq mem with earlier | ⟨kills, rfl⟩
    · rw [live, (inv.dead seq earlier).1, Nat.zero_sub]
      exact ⟨rfl, Or.inl earlier⟩
    · rw [live, kills.1, if_pos rfl]
      exact ⟨rfl, Or.inr (moves.closed _ (killsClosed held kills))⟩
  · rw [stage, committed]
    intro done seq mem
    rcases split seq mem with earlier | ⟨kills, rfl⟩
    · exact inv.clean done seq earlier
    · exact sound kills done
  · rw [gate, stage, dead]
    intro rest sweeping
    obtain ⟨done, listed⟩ := inv.sweeping rest sweeping
    exact ⟨done, fun seq mem => List.mem_append_left _ (listed seq mem)⟩

theorem uploadedTotal (r : Residency) (offset size remoteId seq : Nat) :
    (markUploaded layout r offset size remoteId).1.map.total (refers seq) +
      (((find r offset).map (refers seq)).getD 0) = r.map.total (refers seq) := by
  refine (DenseMap.totalInsert layout r.map offset _ (refers seq)).trans ?_
  simp [refers, shippedUnspilled]

theorem uploadedEntry {r : Residency} {offset size remoteId k e}
    (found : find (markUploaded layout r offset size remoteId).1 k = some e)
    (spilled : e.state.spilled = true) : find r k = some e := by
  unfold find at *
  simp only [markUploaded, DenseMap.findInsert] at found
  split at found
  · cases Option.some.inj found
    rw [shippedUnspilled] at spilled
    contradiction
  · exact found

theorem noteBlobUploadedInvariant {w offset size remoteId} (inv : Invariant w)
    (sound : DerefSound w (spillReference (getOrCreate w.residency offset size))) :
    Invariant (noteBlobUploaded layout w offset size remoteId) := by
  have total := @uploadedTotal layout w.residency offset size remoteId
  have current : ∀ id bytes, Current (noteBlobUploaded layout w offset size remoteId) id bytes →
      Current w id bytes := by
    rintro id bytes (⟨k, e, found, spilled, known⟩ | reserved)
    · exact Or.inl ⟨k, e, uploadedEntry found spilled, spilled, known⟩
    · exact Or.inr reserved
  unfold noteBlobUploaded at *
  dsimp only at *
  by_cases none : (markUploaded layout w.residency offset size remoteId).2 = 0
  · rw [if_pos none] at *
    refine relabelInvariant inv rfl rfl rfl rfl rfl (fun seq => ?_) current
    exact Nat.add_le_add_right (Nat.le.intro (total seq)) _
  · rw [if_neg none] at *
    cases found : find w.residency offset with
    | none => simp [markUploaded, getOrCreate, found, spillReference, State.spilled] at none
    | some e =>
      have reference : (markUploaded layout w.residency offset size remoteId).2 = spillReference e := by
        simp [markUploaded, getOrCreate, found]
      have spilled : e.state.spilled = true := by
        by_contra unspilled
        simp [reference, spillReference, unspilled] at none
      have id : spillReference e = e.remoteId := by simp [spillReference, spilled]
      simp only [getOrCreate, found, Option.getD_some, id] at sound
      rw [reference, id] at *
      have held := inv.held e.remoteId e.size (Or.inl ⟨offset, e, found, spilled, rfl, rfl⟩)
      refine derefInvariant inv held rfl rfl rfl rfl rfl (fun seq => ?_) current
        fun kills => (sound kills).2
      have balance := total seq
      simp only [found, Option.map_some, Option.getD_some, refers, spilled, true_and] at balance
      simp only [references, outstanding] at balance ⊢
      rw [← balance]
      by_cases same : seq = spillSegmentOf e.remoteId
      · simp only [same, if_true]
        omega
      · simp only [same, Ne.symm same, if_false]
        omega

theorem takenPerm {w : World} {index r} (here : w.reserved[index]? = some r) :
    (outstanding w).Perm (r :: outstanding { w with reserved := w.reserved.eraseIdx index }) := by
  obtain ⟨inside, here⟩ := List.getElem?_eq_some_iff.mp here
  have perm := List.getElem_cons_eraseIdx_perm inside
  rw [here] at perm
  exact (perm.append_right _).symm

theorem takenReferences {w : World} {index r} (here : w.reserved[index]? = some r) (seq : Nat) :
    references w seq = references { w with reserved := w.reserved.eraseIdx index } seq +
      if seq = spillSegmentOf r.remoteId then 1 else 0 := by
  unfold references
  rw [(takenPerm here).countP_eq, List.countP_cons, Nat.add_assoc]
  by_cases same : seq = spillSegmentOf r.remoteId
  · simp [same]
  · simp [same, Ne.symm same]

theorem takenCurrent {w : World} {index r id size} (here : w.reserved[index]? = some r)
    (mem : ∃ other ∈ outstanding { w with reserved := w.reserved.eraseIdx index },
      other.remoteId = id ∧ other.size = size) :
    ∃ other ∈ outstanding w, other.remoteId = id ∧ other.size = size := by
  obtain ⟨other, mem, known⟩ := mem
  exact ⟨other, (takenPerm here).mem_iff.mpr (List.mem_cons_of_mem _ mem), known⟩

theorem spilledTotal (state : State) (r : Residency) (offset size remoteId seq : Nat) :
    (markSpilledAs layout state r offset size remoteId).map.total (refers seq) ≤
      r.map.total (refers seq) + if seq = spillSegmentOf remoteId then 1 else 0 := by
  have balance := DenseMap.totalInsert layout r.map offset { getOrCreate r offset size with
    state := state
    remoteId := remoteId
    durable := false
    markedGeneration := r.generation } (refers seq)
  refine Nat.le_trans (Nat.le.intro balance) (Nat.add_le_add_left ?_ _)
  unfold refers
  split
  · rename_i both
    rw [if_pos both.2.symm]
  · exact Nat.zero_le _

theorem recordInvariant {w index r} {state : State} (inv : Invariant w)
    (here : w.reserved[index]? = some r)
    (size : ∀ e, find w.residency r.offset = some e → e.size = r.size) :
    Invariant { w with
      reserved := w.reserved.eraseIdx index
      residency := markSpilledAs layout state w.residency r.offset r.size r.remoteId } := by
  refine relabelInvariant inv rfl rfl rfl rfl rfl (fun seq => ?_) ?_
  · rw [takenReferences here seq]
    have total := @spilledTotal layout state w.residency r.offset r.size r.remoteId seq
    simp only [references, outstanding] at total ⊢
    omega
  · rintro id bytes (⟨k, e, found, spilled, known⟩ | reserved)
    · unfold find markSpilledAs at found
      rw [DenseMap.findInsert] at found
      split at found
      · cases Option.some.inj found
        obtain ⟨rfl, rfl⟩ := known
        refine Or.inr ⟨r, List.mem_append_left _ (List.mem_of_getElem? here), rfl, ?_⟩
        unfold getOrCreate
        cases before : find w.residency r.offset with
        | none => rfl
        | some e => exact (size e before).symm
      · exact Or.inl ⟨k, e, found, spilled, known⟩
    · exact Or.inr (takenCurrent here reserved)

theorem markReservedInvariant {w index} (inv : Invariant w)
    (sound : ∀ r ∈ w.reserved[index]?, ∀ e ∈ find w.residency r.offset,
      if r.diverted then e.size = r.size else DerefSound w r.remoteId) :
    Invariant (markReserved layout w index) := by
  unfold markReserved
  split
  · exact inv
  rename_i r here
  have sound := sound r here
  dsimp only
  split
  · rename_i diverted
    simp only [diverted, if_true] at sound
    exact recordInvariant inv here sound
  rename_i local'
  split
  · rename_i tracked
    obtain ⟨e, found⟩ := Option.isSome_iff_exists.mp tracked
    have sound := sound e found
    rw [if_neg local'] at sound
    have held := inv.held r.remoteId r.size
      (Or.inr ⟨r, List.mem_append_left _ (List.mem_of_getElem? here), rfl, rfl⟩)
    refine derefInvariant inv held rfl rfl rfl rfl rfl (fun seq => ?_) ?_ fun kills => (sound kills).2
    · exact Nat.le_of_eq (takenReferences here seq).symm
    · rintro id bytes (entry | reserved)
      · exact Or.inl entry
      · exact Or.inr (takenCurrent here reserved)
  · rename_i untracked
    refine recordInvariant inv here fun e found => ?_
    rw [found] at untracked
    exact absurd rfl untracked

/-! ## Checkpoints -/

theorem forgetInvariant {w : World} (freed : List Nat) {r s} (early : w.stage.isCommitted = false)
    (inv : Invariant { w with residency := r, store := s }) :
    Invariant { w with
      residency := (forgetFreed layout r s freed).1
      store := (forgetFreed layout r s freed).2 } := by
  induction freed generalizing r s with
  | nil => exact inv
  | cons offset rest ih =>
    unfold forgetFreed
    cases gone : forget layout r offset with
    | none => exact ih inv
    | some both =>
      obtain ⟨dropped, forgotten⟩ := both
      obtain ⟨e, found, map, spilled, remoteId⟩ := forgetFound gone
      have current : ∀ id size store, Current { w with residency := dropped, store := store } id size →
          Current { w with residency := r, store := s } id size := by
        rintro id size store (⟨k, e, now, known⟩ | reserved)
        · unfold find at now
          simp only [map, DenseMap.findErase] at now
          split at now
          · contradiction
          · exact Or.inl ⟨k, e, now, known⟩
        · exact Or.inr reserved
      have total : ∀ seq, dropped.map.total (refers seq) + refers seq e = r.map.total (refers seq) :=
        fun seq => map ▸ DenseMap.totalErase found (refers seq)
      dsimp only
      refine ih ?_
      split
      · rename_i tracked
        rw [spilled] at tracked
        rw [remoteId]
        have held := inv.held e.remoteId e.size (Or.inl ⟨offset, e, found, tracked, rfl, rfl⟩)
        refine derefInvariant inv held rfl rfl rfl rfl rfl (fun seq => ?_) (fun id size => current id size _)
          fun _ done => absurd (early.symm.trans done) Bool.false_ne_true
        have balance := total seq
        simp only [refers, tracked, true_and] at balance
        simp only [references, outstanding] at balance ⊢
        rw [← balance]
        by_cases same : seq = spillSegmentOf e.remoteId
        · simp only [same, if_true]
          omega
        · simp only [same, Ne.symm same, if_false]
          omega
      · refine relabelInvariant inv rfl rfl rfl rfl rfl (fun seq => ?_) fun id size => current id size _
        exact Nat.add_le_add_right (Nat.le.intro (total seq)) _

theorem forgetFrame (freed : List Nat) (r : Residency) (s : Store) :
    (forgetFreed layout r s freed).2.openBuffer = s.openBuffer := by
  induction freed generalizing r s with
  | nil => rfl
  | cons offset rest ih =>
    unfold forgetFreed
    split
    · exact ih r s
    · rw [ih]
      split
      · exact (derefFrame s _).1
      · rfl

theorem snapshotInvariant {w freed clean} (inv : Invariant w) (early : w.stage.isCommitted = false)
    (empty : w.store.openBuffer = []) : Invariant (snapshot layout w freed clean) := by
  have forgotten := @forgetInvariant layout w freed _ _ early inv
  have still := (@forgetFrame layout freed w.residency w.store).trans empty
  unfold snapshot
  dsimp only
  generalize forgetFreed layout w.residency w.store freed = both at *
  have moves : Moves { w with residency := both.1, store := both.2 } { w with
      residency := (serializeGeneration both.1).1
      store := both.2
      stage := .writing (serialize (serializeGeneration both.1).1 clean) (serializeGeneration both.1).2 } :=
    heldFrame rfl rfl rfl rfl fun h => h
  refine movesInvariant forgotten moves
    ⟨forgotten.shape.next,forgotten.shape.opened,forgotten.shape.small,forgotten.shape.journaled,
      forgotten.shape.opening,forgotten.shape.putting⟩
    forgotten.counts (fun _ _ now => Or.inl now) ?_ ?_ ?_ ?_
  · rintro table (same | ⟨generation, writing⟩)
    · exact Or.inl (Or.inl same)
    · cases writing
      refine Or.inr fun offset row found spilled => ?_
      simp only [serialize, DenseMap.findMapValues] at found
      obtain ⟨e, here, rfl⟩ := Option.map_eq_some_iff.mp found
      have held := forgotten.held e.remoteId e.size (Or.inl ⟨offset, e, here, spilled, rfl, rfl⟩)
      rcases heldMoves moves held with stored | opened
      · exact stored
      · exact absurd still opened.2.1
  · intro seq mem
    exact ⟨(forgotten.dead seq mem).1, Or.inl mem⟩
  · intro done
    cases done
  · intro rest sweeping
    exact absurd (early.symm.trans (inv.sweeping rest sweeping).1) Bool.false_ne_true

theorem segmentPutInvariant {w put} (inv : Invariant w) (gate : w.gate.isPut = true) :
    Invariant (segmentPut layout w put) := by
  have bytes := inv.shape.putting gate
  unfold segmentPut
  dsimp only
  split
  · rename_i r putting
    split
    · rename_i ok
      subst ok
      refine flushedInvariant inv bytes rfl rfl rfl ?_ rfl rfl rfl
      simp [outstanding, putting]
    · exact segmentFailedInvariant inv bytes rfl rfl rfl rfl (Or.inl rfl) rfl rfl
  · rename_i freed clean putting flushing
    split
    · rename_i ok
      subst ok
      refine snapshotInvariant ?_ ?_ rfl
      · refine flushedInvariant inv bytes rfl rfl rfl ?_ rfl rfl rfl
        simp [outstanding, putting]
      · simp only [flushing, Stage.isCommitted]
    · exact segmentFailedInvariant inv bytes rfl rfl rfl rfl (Or.inr rfl) rfl rfl
  · exact inv

theorem flushInvariant {w} (inv : Invariant w) (free : w.gate = .free) :
    Invariant (flush layout w) := by
  unfold flush
  split
  · rename_i freed clean flushing
    split
    · rename_i empty
      exact snapshotInvariant inv (by simp only [flushing, Stage.isCommitted]) empty
    · rename_i bytes
      refine movesInvariant inv (heldFrame rfl rfl rfl rfl fun opening => by cases opening)
        ⟨inv.shape.next, inv.shape.opened, inv.shape.small, ?_, ?_, fun _ => bytes⟩ ?_ ?_
        (fun _ kept => Or.inl kept) ?_ inv.clean ?_
      · exact fun nonempty => ⟨(inv.shape.journaled nonempty).1, rfl⟩
      · intro job record journaling
        cases journaling
      · intro seq
        have before := inv.counts seq
        simp only [references, outstanding, free] at before ⊢
        exact before
      · intro id size now
        simp only [Current, outstanding, free] at now ⊢
        exact Or.inl now
      · intro seq mem
        exact ⟨(inv.dead seq mem).1, Or.inl mem⟩
      · intro rest sweeping
        cases sweeping
  · exact inv

theorem settledTotal (r : Residency) (generation seq : Nat) :
    (commitDurable r generation).map.total (refers seq) = r.map.total (refers seq) := by
  refine (DenseMap.totalMapValues _ _ _).trans (congrArg _ (funext fun e => ?_))
  unfold settleDurable refers
  split
  · rfl
  · rfl

theorem commitInvariant {w settled} (inv : Invariant w)
    (sound : settled = true → ∀ seq ∈ w.store.deadSegments, ¬Mentions (pendingTable w) seq) :
    Invariant (commit w settled) := by
  unfold commit
  split
  · rename_i table generation writing
    have stored := inv.tables table (Or.inr ⟨generation, writing⟩)
    have unswept : ∀ rest, w.gate ≠ .sweeping rest := by
      intro rest sweeping
      have done := (inv.sweeping rest sweeping).1
      rw [writing] at done
      cases done
    split
    · rename_i settled
      have clean := sound settled
      simp only [pendingTable, writing] at clean
      have moves : Moves w { w with
          committed := table
          residency := commitDurable w.residency generation
          stage := .committed } := heldFrame rfl rfl rfl rfl fun h => h
      refine movesInvariant inv moves
        ⟨inv.shape.next,inv.shape.opened,inv.shape.small,inv.shape.journaled,inv.shape.opening,
          inv.shape.putting⟩ ?_ ?_ ?_ ?_ (fun _ => clean) fun rest sweeping => ?_
      · intro seq
        have before := inv.counts seq
        simp only [references, settledTotal] at before ⊢
        exact before
      · rintro id size (⟨offset, e, found, spilled, rfl, rfl⟩ | reserved)
        · unfold find commitDurable at found
          simp only [DenseMap.findMapValues] at found
          obtain ⟨old, here, rfl⟩ := Option.map_eq_some_iff.mp found
          have same : (settleDurable generation old).state = old.state ∧
              (settleDurable generation old).remoteId = old.remoteId ∧
              (settleDurable generation old).size = old.size := by
            unfold settleDurable
            split
            · exact ⟨rfl,rfl,rfl⟩
            · exact ⟨rfl,rfl,rfl⟩
          exact Or.inl (Or.inl ⟨offset, old, here, same.1 ▸ spilled, same.2.1.symm, same.2.2.symm⟩)
        · exact Or.inl (Or.inr reserved)
      · rintro other (rfl | ⟨_, again⟩)
        · exact Or.inr (tableMoves moves stored)
        · cases again
      · intro seq mem
        exact ⟨(inv.dead seq mem).1, Or.inl mem⟩
      · exact absurd sweeping (unswept rest)
    · have moves : Moves w { w with committed := table, stage := .idle } :=
        heldFrame rfl rfl rfl rfl fun h => h
      refine movesInvariant inv moves
        ⟨inv.shape.next,inv.shape.opened,inv.shape.small,inv.shape.journaled,inv.shape.opening,
          inv.shape.putting⟩ inv.counts (fun _ _ now => Or.inl now) ?_ ?_ (fun done => by cases done)
        fun rest sweeping => absurd sweeping (unswept rest)
      · rintro other (rfl | ⟨_, again⟩)
        · exact Or.inr (tableMoves moves stored)
        · cases again
      · intro seq mem
        exact ⟨(inv.dead seq mem).1, Or.inl mem⟩
  · exact inv

theorem stageInvariant {w : World} {stage : Stage} (inv : Invariant w)
    (quiet : w.stage.isCommitted = false) (early : stage.isCommitted = false)
    (unwritten : stage.isWriting = false) : Invariant { w with stage := stage } := by
  refine movesInvariant inv (heldFrame rfl rfl rfl rfl fun h => h)
    ⟨inv.shape.next,inv.shape.opened,inv.shape.small,inv.shape.journaled,inv.shape.opening,
      inv.shape.putting⟩ inv.counts (fun _ _ now => Or.inl now) ?_ ?_
    (fun done => absurd (early.symm.trans done) Bool.false_ne_true) ?_
  · rintro table (same | ⟨generation, writing⟩)
    · exact Or.inl (Or.inl same)
    · dsimp only at writing
      subst writing
      cases unwritten
  · intro seq mem
    exact ⟨(inv.dead seq mem).1, Or.inl mem⟩
  · intro rest sweeping
    exact absurd (quiet.symm.trans (inv.sweeping rest sweeping).1) Bool.false_ne_true

/-! ## The sweep -/

theorem sweepInvariant {w : World} (inv : Invariant w) (free : w.gate = .free)
    (done : w.stage.isCommitted = true) : Invariant { w with
      store := startSweep w.store
      gate := .sweeping w.store.deadSegments } := by
  refine movesInvariant inv (heldFrame rfl rfl rfl rfl fun opening => by cases opening)
    ⟨inv.shape.next, inv.shape.opened, inv.shape.small, ?_, ?_, fun put => by cases put⟩ ?_ ?_
    (fun _ kept => Or.inl kept) ?_ inv.clean ?_
  · exact fun nonempty => ⟨(inv.shape.journaled nonempty).1, rfl⟩
  · intro job record journaling
    cases journaling
  · intro seq
    have before := inv.counts seq
    simp only [references, outstanding, free] at before ⊢
    exact before
  · intro id size now
    simp only [Current, outstanding, free] at now ⊢
    exact Or.inl now
  · intro seq mem
    exact ⟨(inv.dead seq mem).1, Or.inl mem⟩
  · rintro rest ⟨rfl⟩
    exact ⟨done, fun _ mem => mem⟩

theorem deadUnheld {w seq} (inv : Invariant w) (mem : seq ∈ w.store.deadSegments) {remoteId size}
    (now : Current w remoteId size) : spillSegmentOf remoteId ≠ seq := by
  rintro rfl
  have zero := Nat.le_trans (inv.counts _) (Nat.le_of_eq (inv.dead _ mem).1)
  unfold references at zero
  rcases now with ⟨offset, e, found, spilled, rfl, _⟩ | ⟨r, pending, rfl, _⟩
  · have counted := @DenseMap.totalLe _ _ _ w.residency.map (fun _ => 0) (refers (spillSegmentOf e.remoteId))
      fun _ _ _ => Nat.zero_le _
    have one := DenseMap.totalSame (m := w.residency.map) (f := fun _ => 0)
      (g := refers (spillSegmentOf e.remoteId)) (fun _ _ _ => Nat.zero_le _) (by omega) offset e found
    simp [refers, spilled] at one
  · have positive : 0 < (outstanding w).countP fun other =>
        spillSegmentOf other.remoteId = spillSegmentOf r.remoteId :=
      List.countP_pos_iff.mpr ⟨r, pending, by simp⟩
    omega

theorem removeSegmentInvariant {w removed} (inv : Invariant w) : Invariant (removeSegment w removed) := by
  unfold removeSegment
  split
  · rename_i seq rest gate
    obtain ⟨done, listed⟩ := inv.sweeping _ gate
    have dead := listed seq List.mem_cons_self
    have inside : ∀ remoteId size, spillSegmentOf remoteId ≠ seq → InSegment w remoteId size →
        InSegment { w with
          segments := if removed then Function.update w.segments seq none else w.segments
          gate := .sweeping rest } remoteId size := by
      intro remoteId size other inside
      unfold InSegment at *
      dsimp only
      split
      · rwa [Function.update_of_ne other]
      · exact inside
    have closed : ∀ s, Closed w s → Closed { w with
        segments := if removed then Function.update w.segments seq none else w.segments
        gate := .sweeping rest } s := fun s before => ⟨before.1, fun same => ⟨(before.2 same).1, rfl⟩⟩
    have same : ∀ s, references { w with
        segments := if removed then Function.update w.segments seq none else w.segments
        gate := .sweeping rest } s = references w s := by
      intro s
      simp only [references, outstanding, gate]
    constructor
    · refine ⟨inv.shape.next, inv.shape.opened, inv.shape.small, ?_, ?_, fun put => by cases put⟩
      · exact fun nonempty => ⟨(inv.shape.journaled nonempty).1, rfl⟩
      · intro job record journaling
        cases journaling
    · intro s
      rw [same]
      exact inv.counts s
    · intro id size now
      have before : Current w id size := by
        simp only [Current, outstanding, gate] at now ⊢
        exact now
      rcases inv.held id size before with ⟨held, stored⟩ | opened
      · exact Or.inl ⟨closed _ held, inside id size (deadUnheld inv dead before) stored⟩
      · exact Or.inr opened
    · intro table kept offset row found spilled
      have before : Kept w table := kept
      obtain ⟨held, stored⟩ := inv.tables table before offset row found spilled
      refine ⟨closed _ held, inside _ _ ?_ stored⟩
      rintro rfl
      rcases before with rfl | ⟨generation, writing⟩
      · exact inv.clean done _ dead ⟨(offset, row), DenseMap.findMem.mp found, spilled, rfl⟩
      · rw [writing] at done
        cases done
    · intro s mem
      exact ⟨(inv.dead s mem).1, closed s (inv.dead s mem).2⟩
    · exact inv.clean
    · rintro _ ⟨rfl⟩
      exact ⟨done, fun s mem => listed s (List.mem_cons_of_mem _ mem)⟩
  · exact inv

theorem finishRemovingInvariant {w} (inv : Invariant w) (gate : w.gate = .sweeping []) :
    Invariant (finishRemoving w) := by
  have finished : ∀ next : Gate, next.isPut = false → next.isOpening = false → next.isSweeping = false →
      Invariant { w with store := endSweep w.store, gate := next } := by
    intro next unput still unswept
    have pending : outstanding { w with store := endSweep w.store, gate := next } = w.reserved := by
      unfold outstanding
      dsimp only
      split
      · cases unput
      · exact List.append_nil _
    have before : outstanding w = w.reserved := by simp [outstanding, gate]
    refine movesInvariant inv (heldFrame rfl rfl rfl rfl fun opening => ?_)
      ⟨inv.shape.next, inv.shape.opened, inv.shape.small, ?_, ?_, ?_⟩ ?_ ?_ (fun _ kept => Or.inl kept)
      (fun _ mem => by cases mem) (fun _ _ mem => by cases mem) ?_
    · exact absurd (still.symm.trans opening) Bool.false_ne_true
    · exact fun nonempty => ⟨(inv.shape.journaled nonempty).1, still⟩
    · rintro job record rfl
      cases still
    · exact fun put => absurd (unput.symm.trans put) Bool.false_ne_true
    · intro seq
      refine Nat.le_trans (Nat.le_of_eq ?_) (inv.counts seq)
      unfold references
      rw [pending, before]
    · rintro id size (entry | reserved)
      · exact Or.inl (Or.inl entry)
      · rw [pending] at reserved
        exact Or.inl (Or.inr (before ▸ reserved))
    · rintro rest rfl
      cases unswept
  unfold finishRemoving
  dsimp only
  split
  · exact finished _ rfl rfl rfl
  · exact finished _ rfl rfl rfl

/-! ## Crashes -/

structure Replayed (s after : Store) : Prop where
  buffer : after.openBuffer = s.openBuffer
  openSeq : after.openSeq = s.openSeq
  dead : after.deadSegments = s.deadSegments
  later : s.nextSeq ≤ after.nextSeq
  small : s.nextSeq < 2 ^ 32 → after.nextSeq < 2 ^ 32

theorem restoredReplayed (s : Store) (seq : Nat) : Replayed s (restoreNextSegmentSeq s (u32 seq)) := by
  refine ⟨rfl, rfl, rfl, (restoredLe s _).1, fun small => ?_⟩
  unfold restoreNextSegmentSeq
  dsimp only
  split
  · exact u32Lt _
  · exact small

theorem replayedTrans {s middle after : Store} (one : Replayed s middle) (two : Replayed middle after) :
    Replayed s after :=
  ⟨two.buffer.trans one.buffer, two.openSeq.trans one.openSeq, two.dead.trans one.dead,
    Nat.le_trans one.later two.later, fun small => two.small (one.small small)⟩

theorem addLiveReplayed (s : Store) (remoteId : Nat) : Replayed s (addLive s remoteId) := by
  have restored := restoredReplayed s (spillSegmentOf remoteId + 1)
  exact ⟨restored.buffer,restored.openSeq,restored.dead,restored.later,restored.small⟩

theorem foldReplayed (entries : List (Nat × Entry)) (s : Store) :
    Replayed s (entries.foldl (fun s e => addLive s e.2.remoteId) s) ∧ ∀ e ∈ entries,
      u32 (spillSegmentOf e.2.remoteId + 1) ≤
        (entries.foldl (fun s e => addLive s e.2.remoteId) s).nextSeq := by
  induction entries generalizing s with
  | nil => exact ⟨⟨rfl,rfl,rfl,Nat.le_refl _,fun h => h⟩,by simp⟩
  | cons e rest ih =>
    obtain ⟨replayed, later⟩ := ih (addLive s e.2.remoteId)
    refine ⟨replayedTrans (addLiveReplayed s e.2.remoteId) replayed, fun f mem => ?_⟩
    rcases List.mem_cons.mp mem with rfl | inRest
    · exact Nat.le_trans (restoredLe _ _).2 replayed.later
    · exact later f inRest

theorem journaledReplayed (record : List Nat) (s : Store) : Replayed s (restoreJournaled s record) ∧
    (restoreJournaled s record).liveCounts = s.liveCounts := by
  induction record generalizing s with
  | nil => exact ⟨⟨rfl,rfl,rfl,Nat.le_refl _,fun h => h⟩,rfl⟩
  | cons seq rest ih =>
    obtain ⟨replayed, counts⟩ := ih (restoreNextSegmentSeq s (u32 (seq + 1)))
    exact ⟨replayedTrans (restoredReplayed s (seq + 1)) replayed, counts⟩

theorem restoredEntry {table : Table} {offset e} (found : find (deserialize table) offset = some e)
    (spilled : e.state.spilled = true) : ∃ row, table.rows.find offset = some row ∧
      row.state.spilled = true ∧ row.remoteId = e.remoteId ∧ row.size = e.size := by
  unfold find deserialize at found
  simp only [DenseMap.findMapValues] at found
  obtain ⟨row, here, rfl⟩ := Option.map_eq_some_iff.mp found
  exact ⟨row, here, restoredSpilled table.clean row.state ▸ spilled, rfl, rfl⟩

theorem crashInvariant {w removed journalRemoved} (inv : Invariant w)
    (orphans : ∀ seq ∈ removed, ¬Mentions w.committed seq) :
    Invariant (reopened w removed journalRemoved) := by
  obtain ⟨replayed, later⟩ := foldReplayed
    ((deserialize w.committed).map.entries.filter fun e => e.2.state.spilled) fresh
  obtain ⟨restored, counted⟩ := journaledReplayed (w.journal.getD []) (replay (deserialize w.committed))
  have store : Replayed fresh (reopened w removed journalRemoved).store := replayedTrans replayed restored
  have stored := inv.tables w.committed (Or.inl rfl)
  have survives : TableStored (reopened w removed journalRemoved) w.committed := by
    intro offset row found spilled
    obtain ⟨closed, bytes, here, inside⟩ := stored offset row found spilled
    refine ⟨⟨?_, fun _ => ⟨store.buffer, rfl⟩⟩, bytes, ?_, inside⟩
    · let e : Entry := ⟨row.size, restoredState w.committed.clean row.state, true, 0, 0, row.remoteId⟩
      have entry : (offset, e) ∈ (deserialize w.committed).map.entries := by
        refine DenseMap.findMem.mp ?_
        simp only [deserialize, DenseMap.findMapValues, found, Option.map_some, e]
      have kept : e.state.spilled = true := restoredSpilled w.committed.clean row.state ▸ spilled
      have bound := later (offset, e) (List.mem_filter.mpr ⟨entry, kept⟩)
      have wide : spillSegmentOf row.remoteId + 1 < 2 ^ 32 := by
        have := closed.1
        have := inv.shape.next
        omega
      rw [u32Small wide] at bound
      exact Nat.lt_of_lt_of_le (Nat.lt_of_succ_le bound) restored.later
    · have away : spillSegmentOf row.remoteId ∉ removed := fun mem =>
        orphans _ mem ⟨(offset, row), DenseMap.findMem.mp found, spilled, rfl⟩
      simp only [reopened, away, if_false]
      exact here
  constructor
  · refine ⟨store.small (by decide), ?_, ?_, ?_, ?_, ?_⟩
    · rw [store.openSeq]
      exact Nat.lt_of_lt_of_le (by decide) store.later
    · rw [store.buffer]
      decide
    · exact fun bytes => absurd store.buffer bytes
    · intro job record gate
      cases gate
    · intro put
      cases put
  · intro seq
    have live := replayCounts (deserialize w.committed).map.entries fresh seq
    simp only [references, outstanding, reopened, counted, List.append_nil, List.countP_nil, Nat.add_zero]
    refine Nat.le_of_eq (Eq.trans ?_ live.symm)
    exact (Nat.zero_add _).symm
  · rintro id size (⟨offset, e, found, spilled, rfl, rfl⟩ | ⟨r, mem, _⟩)
    · obtain ⟨row, here, kept, id, size⟩ := restoredEntry found spilled
      rw [← id, ← size]
      exact Or.inl (survives offset row here kept)
    · cases mem
  · rintro table (rfl | ⟨generation, writing⟩)
    · exact survives
    · cases writing
  · intro seq mem
    rw [store.dead] at mem
    cases mem
  · intro done
    cases done
  · intro rest sweeping
    cases sweeping

/-! ## Runs -/

theorem performInvariant {w a} (inv : Invariant w) (allowed : Allowed w a) (sound : StepSound w a) :
    Invariant (perform layout segmentTarget w a) := by
  cases a with
  | spillBlob job => exact spillBlobInvariant inv allowed.1 allowed.2 sound.1 sound.2
  | journalPut put => exact journalPutInvariant inv
  | segmentPut put => exact segmentPutInvariant inv allowed
  | markReserved index => exact markReservedInvariant inv sound
  | noteBlobUploaded offset size remoteId => exact noteBlobUploadedInvariant inv sound
  | writeIndex freed clean =>
    refine stageInvariant inv ?_ rfl rfl
    cases stage : w.stage with
    | idle => rfl
    | _ =>
      simp only [Allowed, stage] at allowed
      cases allowed
  | flush => exact flushInvariant inv allowed.1
  | abort =>
    refine stageInvariant inv ?_ rfl rfl
    cases stage : w.stage with
    | writing table generation => rfl
    | _ =>
      simp only [Allowed, stage] at allowed
      cases allowed
  | commit settled => exact commitInvariant inv sound
  | sweep => exact sweepInvariant inv allowed.1 allowed.2
  | removeSegment removed => exact removeSegmentInvariant inv
  | finishRemoving => exact finishRemovingInvariant inv allowed
  | removeJournal removed =>
    exact releaseInvariant inv rfl rfl rfl rfl (Or.inr rfl) rfl (Or.inl rfl)
  | crash removed journalRemoved => exact crashInvariant inv fun seq mem => (allowed seq mem).2

variable (layout segmentTarget)

theorem invariantHolds : Inductive ((system layout segmentTarget).under StepSound) Invariant := by
  constructor
  · intro w first
    cases first
    exact startInvariant
  · intro w a after inv step
    obtain ⟨sound, allowed, rfl⟩ := step
    exact performInvariant inv allowed sound

theorem committedTableBacked {w} (reach : Reachable ((system layout segmentTarget).under StepSound) w) :
    TableBacked w := by
  have inv := reachableInvariant (invariantHolds layout segmentTarget) reach
  intro offset row found spilled
  exact (inv.tables w.committed (Or.inl rfl) offset row found spilled).2

-- A blob is spilled and checkpointed; it is uploaded only after the sweep.
def orderlyActions : List Action :=
  [.spillBlob ⟨100, [1, 2, 3, 4], false⟩, .journalPut .ok, .segmentPut .ok, .markReserved 0,
    .writeIndex [] false, .flush, .commit true, .sweep, .finishRemoving, .removeJournal true,
    .noteBlobUploaded 100 4 (7 * 2 ^ 32)]

theorem orderlyBacked :
    TableBacked (orderlyActions.foldl (perform (appendLayout Nat Entry) 4) start) :=
  committedTableBacked _ _ (reachableAllowed (by decide))

/-! The upload notification arrives after the snapshot and before the sweep: the sweep deletes the
segment that the table just committed still names. -/

def racingActions : List Action :=
  [.spillBlob ⟨100, [1, 2, 3, 4], false⟩, .journalPut .ok, .segmentPut .ok, .markReserved 0,
    .writeIndex [] false, .flush, .noteBlobUploaded 100 4 (7 * 2 ^ 32), .commit true, .sweep,
    .removeSegment true]

theorem racingOutcome : let w := racingActions.foldl (perform (appendLayout Nat Entry) 4) start
    w.committed.rows.find 100 = some ⟨4, .localSpilled, 2 ^ 32⟩ ∧ w.segments 1 = none := by
  decide

theorem referencedSegmentSwept :
    ¬∀ layout segmentTarget w, Reachable (system layout segmentTarget) w → TableBacked w := by
  intro all
  have run : AllAllowed (fun w a => True ∧ Allowed w a) (perform (appendLayout Nat Entry) 4) start
      racingActions := by decide
  have backed := all _ _ _ (reachableUnder (reachableAllowed run))
  obtain ⟨row, gone⟩ := racingOutcome
  obtain ⟨bytes, here, _⟩ := backed 100 _ row rfl
  exact absurd (here.symm.trans gone) (by simp)

end Dewfall.SpillRuns
