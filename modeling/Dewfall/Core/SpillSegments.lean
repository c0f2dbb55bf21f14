import Dewfall.Core.SpillRuns

/-! Live counts of the segments, and which segment objects the sweeps delete, over the runs of one session.
What a crash leaves behind is not treated. -/
namespace Dewfall.SpillSegments
open General General.Transition BlobResidency SpillStore SpillRuns

variable {layout : Layout Nat Entry} {segmentTarget : Nat}

/-! ## Filling a segment -/

-- Locators have 32 bits for the segment and 32 for the offset.
def Fits (w : World) (job : Job) : Prop :=
  w.store.openBuffer.length + job.data.length < 2 ^ 32 ∧ (w.store.openBuffer = [] → w.store.nextSeq + 1 < 2 ^ 32)

instance (w job) : Decidable (Fits w job) := by unfold Fits; infer_instance

structure Filling (w : World) : Prop where
  shape : Shape w
  numbered : w.store.openBuffer ≠ [] ∨ w.gate.isOpening = true → w.store.openSeq ≠ 0

structure SameSegment (w after : World) : Prop where
  buffer : after.store.openBuffer = w.store.openBuffer
  openSeq : after.store.openSeq = w.store.openSeq
  nextSeq : after.store.nextSeq = w.store.nextSeq
  journaled : after.store.openJournaled = w.store.openJournaled

theorem fillingFrame {w after : World} (filling : Filling w) (same : SameSegment w after)
    (gate : after.gate = w.gate ∨ after.gate.isOpening = false ∧
      (after.gate.isPut = true → w.store.openBuffer ≠ [])) : Filling after := by
  have opening : after.gate.isOpening = true → w.gate.isOpening = true := by
    intro now
    rcases gate with kept | ⟨closed, _⟩
    · exact kept ▸ now
    · exact absurd (closed.symm.trans now) Bool.false_ne_true
  refine ⟨⟨?_, ?_, ?_, fun bytes => ?_, fun job record journaling => ?_, fun put => ?_⟩, fun either => ?_⟩
  · exact same.nextSeq ▸ filling.shape.next
  · rw [same.openSeq, same.nextSeq]
    exact filling.shape.opened
  · exact same.buffer ▸ filling.shape.small
  · rw [same.buffer] at bytes
    obtain ⟨journaled, still⟩ := filling.shape.journaled bytes
    refine ⟨same.journaled.trans journaled, ?_⟩
    rw [← Bool.not_eq_true]
    intro now
    exact absurd (still.symm.trans (opening now)) Bool.false_ne_true
  · rcases gate with kept | ⟨closed, _⟩
    · exact filling.shape.opening job record (kept ▸ journaling)
    · rw [journaling] at closed
      cases closed
  · rw [same.buffer]
    rcases gate with kept | ⟨_, bytes⟩
    · exact filling.shape.putting (kept ▸ put)
    · exact bytes put
  · rw [same.openSeq]
    rw [same.buffer] at either
    exact filling.numbered (either.imp_right opening)

theorem fillingOpen {w : World} {job} (filling : Filling w) (empty : w.store.openBuffer = [])
    (data : job.data ≠ []) (fits : Fits w job) (record : List Nat) :
    Filling { w with store := openSegment w.store, gate := .journaling job record } := by
  have room := fits.2 empty
  have next : u32 (w.store.nextSeq + 1) = w.store.nextSeq + 1 := u32Small room
  have positive := filling.shape.opened
  have opened : openSegment w.store = { w.store with
      openSeq := w.store.nextSeq, nextSeq := w.store.nextSeq + 1, openJournaled := false } := by
    rw [SpillStore.openSegment, if_pos empty, next]
  rw [opened]
  refine ⟨⟨room, Nat.lt_succ_self _, filling.shape.small, fun bytes => absurd empty bytes, ?_, ?_⟩, fun _ => ?_⟩
  · rintro _ _ ⟨rfl, rfl⟩
    have small := fits.1
    exact ⟨data, by omega⟩
  · intro put
    cases put
  · exact Nat.ne_of_gt (Nat.lt_of_le_of_lt (Nat.zero_le _) positive)

theorem fillingAppend {w after : World} {job : Job} (filling : Filling w)
    (seq : w.store.openSeq ≠ 0) (data : job.data ≠ [])
    (fits : w.store.openBuffer.length + job.data.length < 2 ^ 32)
    (store : after.store = (appendBlob w.store job.data).1) (gate : after.gate.isOpening = false) : Filling after := by
  have bytes : after.store.openBuffer = w.store.openBuffer ++ job.data := by rw [store]; rfl
  have same : after.store.openSeq = w.store.openSeq := by rw [store]; rfl
  have next : after.store.nextSeq = w.store.nextSeq := by rw [store]; rfl
  have some_ : after.store.openBuffer ≠ [] := by
    rw [bytes]
    exact fun nil => data (List.append_eq_nil_iff.mp nil).2
  refine ⟨⟨next ▸ filling.shape.next, ?_, ?_, fun _ => ⟨by rw [store]; rfl, gate⟩, ?_, fun _ => some_⟩, fun _ => ?_⟩
  · rw [same, next]
    exact filling.shape.opened
  · rw [bytes, List.length_append]
    exact fits
  · intro _ _ journaling
    rw [journaling] at gate
    cases gate
  · exact same ▸ seq

theorem fillingFlushed {w after : World} (filling : Filling w) (store : after.store = flushed w.store)
    (gate : after.gate = .free) : Filling after := by
  refine ⟨⟨?_, ?_, ?_, fun bytes => ?_, ?_, ?_⟩, ?_⟩
  · rw [store]
    exact filling.shape.next
  · rw [store]
    exact filling.shape.opened
  · rw [store]
    exact Nat.two_pow_pos 32
  · rw [store] at bytes
    exact absurd rfl bytes
  · intro _ _ journaling
    rw [gate] at journaling
    cases journaling
  · intro put
    rw [gate] at put
    cases put
  · rw [gate, store]
    rintro (bytes | opening)
    · exact absurd rfl bytes
    · cases opening

theorem derefSegment {w after : World} {remoteId} (store : after.store = deref w.store remoteId) :
    SameSegment w after := by
  obtain ⟨buffer, seq, next⟩ := derefFrame w.store remoteId
  refine ⟨store ▸ buffer, store ▸ seq, store ▸ next, ?_⟩
  rw [store]
  unfold deref
  dsimp only
  repeat' split
  all_goals rfl

theorem forgetSegment (freed : List Nat) (w : World) (r : Residency) (s : Store)
    (same : SameSegment w { w with residency := r, store := s }) : SameSegment w { w with
      residency := (forgetFreed layout r s freed).1
      store := (forgetFreed layout r s freed).2 } := by
  induction freed generalizing r s with
  | nil => exact same
  | cons offset rest ih =>
    unfold forgetFreed
    split
    · exact ih r s same
    · rename_i dropped forgotten _
      refine ih dropped _ ?_
      split
      · obtain ⟨buffer, seq, next, journaled⟩ :=
          @derefSegment { w with store := s } { w with store := deref s forgotten.remoteId } _ rfl
        exact ⟨buffer.trans same.buffer, seq.trans same.openSeq, next.trans same.nextSeq,
          journaled.trans same.journaled⟩
      · exact ⟨same.buffer, same.openSeq, same.nextSeq, same.journaled⟩

theorem fillingSnapshot {w : World} {freed clean} (filling : Filling w) :
    Filling (snapshot layout w freed clean) := by
  obtain ⟨buffer, seq, next, journaled⟩ := @forgetSegment layout freed w w.residency w.store ⟨rfl, rfl, rfl, rfl⟩
  exact fillingFrame filling ⟨buffer, seq, next, journaled⟩ (Or.inl rfl)

theorem fillingAppendJob {w : World} {job : Job} (filling : Filling w) (seq : w.store.openSeq ≠ 0) (data : job.data ≠ [])
    (fits : w.store.openBuffer.length + job.data.length < 2 ^ 32) : Filling (appendJob segmentTarget w job) := by
  unfold appendJob
  dsimp only
  split
  · exact fillingAppend filling seq data fits rfl rfl
  · exact fillingAppend filling seq data fits rfl rfl

theorem fillingSpill {w : World} {job : Job} (filling : Filling w) (data : job.data ≠ []) (fits : Fits w job) :
    Filling (spillBlob segmentTarget w job) := by
  unfold spillBlob
  by_cases empty : w.store.openBuffer = []
  · have unjournaled : (openSegment w.store).openJournaled = false := by simp [SpillStore.openSegment, empty]
    simp only [unjournaled, Bool.false_eq_true, if_false]
    exact fillingOpen filling empty data fits _
  · have same : openSegment w.store = w.store := by simp [SpillStore.openSegment, empty]
    simp only [same, (filling.shape.journaled empty).1, if_true]
    exact fillingAppendJob filling (filling.numbered (Or.inl empty)) data fits.1

theorem openingEmpty {w : World} (shape : Shape w) (opening : w.gate.isOpening = true) : w.store.openBuffer = [] := by
  by_contra bytes
  exact absurd ((shape.journaled bytes).2.symm.trans opening) Bool.false_ne_true

theorem fillingJournal {w : World} {put} (filling : Filling w) : Filling (journalPut segmentTarget w put) := by
  unfold journalPut
  split
  · rename_i job record gate
    have opening : w.gate.isOpening = true := by rw [gate]; rfl
    obtain ⟨data, small⟩ := filling.shape.opening job record gate
    have empty := openingEmpty filling.shape opening
    dsimp only
    split
    · refine fillingAppendJob ?_ (filling.numbered (Or.inr opening)) data (by simpa [empty] using small)
      exact fillingFrame filling ⟨rfl, rfl, rfl, rfl⟩ (Or.inl rfl)
    · exact fillingFrame filling ⟨rfl, rfl, rfl, rfl⟩ (Or.inr ⟨rfl, fun put => by cases put⟩)
  · exact fillingFrame filling ⟨rfl, rfl, rfl, rfl⟩ (Or.inr ⟨rfl, fun put => by cases put⟩)
  · exact filling

theorem fillingPut {w : World} {put} (filling : Filling w) : Filling (segmentPut layout w put) := by
  unfold segmentPut
  dsimp only
  split
  · split
    · exact fillingFlushed filling rfl rfl
    · exact fillingFrame filling ⟨rfl, rfl, rfl, rfl⟩ (Or.inr ⟨rfl, fun put => by cases put⟩)
  · split
    · exact fillingSnapshot (fillingFlushed filling rfl rfl)
    · exact fillingFrame filling ⟨rfl, rfl, rfl, rfl⟩ (Or.inr ⟨rfl, fun put => by cases put⟩)
  · exact filling

theorem fillingReopened {w : World} {removed journalRemoved} : Filling (reopened w removed journalRemoved) := by
  obtain ⟨replayed, _⟩ := foldReplayed
    ((deserialize w.committed).map.entries.filter fun e => e.2.state.spilled) fresh
  obtain ⟨restored, _⟩ := journaledReplayed (w.journal.getD []) (replay (deserialize w.committed))
  have store : Replayed fresh (reopened w removed journalRemoved).store := replayedTrans replayed restored
  refine ⟨⟨store.small (by decide), ?_, ?_, fun bytes => absurd store.buffer bytes, ?_, ?_⟩, ?_⟩
  · rw [store.openSeq]
    exact Nat.lt_of_lt_of_le (by decide) store.later
  · rw [store.buffer]
    decide
  · intro job record gate
    cases gate
  · intro put
    cases put
  · rintro (bytes | opening)
    · exact absurd store.buffer bytes
    · cases opening

theorem fillingPerform {w : World} {a} (filling : Filling w) (allowed : Allowed w a)
    (fits : ∀ job, a = .spillBlob job → Fits w job) : Filling (perform layout segmentTarget w a) := by
  cases a with
  | spillBlob job => exact fillingSpill filling allowed.2 (fits job rfl)
  | journalPut put => exact fillingJournal filling
  | segmentPut put => exact fillingPut filling
  | markReserved index =>
    unfold perform markReserved
    dsimp only
    split
    · exact filling
    · repeat' split
      · exact fillingFrame filling ⟨rfl, rfl, rfl, rfl⟩ (Or.inl rfl)
      · exact fillingFrame filling (derefSegment rfl) (Or.inl rfl)
      · exact fillingFrame filling ⟨rfl, rfl, rfl, rfl⟩ (Or.inl rfl)
  | noteBlobUploaded offset size remoteId =>
    unfold perform noteBlobUploaded
    dsimp only
    split
    · exact fillingFrame filling ⟨rfl, rfl, rfl, rfl⟩ (Or.inl rfl)
    · exact fillingFrame filling (derefSegment rfl) (Or.inl rfl)
  | writeIndex freed clean => exact fillingFrame filling ⟨rfl, rfl, rfl, rfl⟩ (Or.inl rfl)
  | flush =>
    unfold perform flush
    dsimp only
    split
    · split
      · exact fillingSnapshot filling
      · exact fillingFrame filling ⟨rfl, rfl, rfl, rfl⟩ (Or.inr ⟨rfl, fun _ => by assumption⟩)
    · exact filling
  | abort => exact fillingFrame filling ⟨rfl, rfl, rfl, rfl⟩ (Or.inl rfl)
  | commit settled =>
    unfold perform commit
    dsimp only
    split
    · split
      · exact fillingFrame filling ⟨rfl, rfl, rfl, rfl⟩ (Or.inl rfl)
      · exact fillingFrame filling ⟨rfl, rfl, rfl, rfl⟩ (Or.inl rfl)
    · exact filling
  | sweep => exact fillingFrame filling ⟨rfl, rfl, rfl, rfl⟩ (Or.inr ⟨rfl, fun put => by cases put⟩)
  | removeSegment removed =>
    unfold perform removeSegment
    dsimp only
    split
    · exact fillingFrame filling ⟨rfl, rfl, rfl, rfl⟩ (Or.inr ⟨rfl, fun put => by cases put⟩)
    · exact filling
  | finishRemoving =>
    unfold perform finishRemoving
    dsimp only
    split
    · exact fillingFrame filling ⟨rfl, rfl, rfl, rfl⟩ (Or.inr ⟨rfl, fun put => by cases put⟩)
    · exact fillingFrame filling ⟨rfl, rfl, rfl, rfl⟩ (Or.inr ⟨rfl, fun put => by cases put⟩)
  | removeJournal removed => exact fillingFrame filling ⟨rfl, rfl, rfl, rfl⟩ (Or.inr ⟨rfl, fun put => by cases put⟩)
  | crash removed journalRemoved => exact fillingReopened

/-! ## Live counts -/

-- A step that can lose a segment for the sweeps.
def Keeps (w : World) : Action → Prop
  | .spillBlob job => Fits w job
  | .segmentPut put => (w.gate ≠ .putting none → put = .ok) ∧ (put = .ok → w.store.liveCounts w.store.openSeq ≠ 0)
  | .markReserved index => ∀ r ∈ w.reserved[index]?, ∀ e ∈ find w.residency r.offset,
      if r.diverted then e.state.spilled = false
      else Kills w.store r.remoteId → w.gate.isSweeping = false
  | .noteBlobUploaded offset size _ =>
      Kills w.store (spillReference (getOrCreate w.residency offset size)) → w.gate.isSweeping = false
  | .removeSegment removed => removed = true
  | .crash _ _ => False
  | _ => True

instance (w a) : Decidable (Keeps w a) := by
  apply SpillRuns.Action.casesOn (motive := fun a => Decidable (Keeps w a)) a
  all_goals
    intros
    dsimp only [Keeps]
    infer_instance

structure Tracked (w : World) : Prop where
  filling : Filling w
  counts : ∀ seq, w.store.liveCounts seq = references w seq
  zero : w.store.liveCounts 0 = 0
  queued : ∀ seq, w.segments seq ≠ none → w.store.liveCounts seq ≠ 0 ∨ seq ∈ w.store.deadSegments ∨
    seq = w.store.openSeq ∧ w.store.openBuffer ≠ []
  removing : ∀ rest, w.gate = .sweeping rest → ∀ seq ∈ w.store.deadSegments, w.segments seq ≠ none → seq ∈ rest

theorem startTracked : Tracked start := by
  refine ⟨⟨startInvariant.shape, ?_⟩, fun _ => rfl, rfl, fun _ stored => absurd rfl stored, ?_⟩
  · rintro (bytes | opening)
    · exact absurd rfl bytes
    · cases opening
  · intro rest sweeping
    cases sweeping

theorem trackedFrame {w after : World} (tracked : Tracked w) (filling : Filling after)
    (live : after.store.liveCounts = w.store.liveCounts) (same : ∀ seq, references after seq = references w seq)
    (segments : after.segments = w.segments) (dead : after.store.deadSegments = w.store.deadSegments)
    (opened : w.store.openBuffer ≠ [] → after.store.openSeq = w.store.openSeq ∧ after.store.openBuffer ≠ [])
    (removing : ∀ rest, after.gate = .sweeping rest → w.gate = .sweeping rest ∨ rest = w.store.deadSegments) :
    Tracked after := by
  refine ⟨filling, fun seq => ?_, ?_, fun seq stored => ?_, fun rest sweeping seq mem stored => ?_⟩
  · rw [live, same]
    exact tracked.counts seq
  · exact live ▸ tracked.zero
  · rw [segments] at stored
    rw [live, dead]
    refine (tracked.queued seq stored).imp_right fun either => either.imp_right ?_
    rintro ⟨rfl, bytes⟩
    exact ⟨(opened bytes).1.symm, (opened bytes).2⟩
  · rw [dead] at mem
    rw [segments] at stored
    rcases removing rest sweeping with before | rfl
    · exact tracked.removing rest before seq mem stored
    · exact mem

theorem derefTracked {w after : World} {remoteId} (tracked : Tracked w) (store : after.store = deref w.store remoteId)
    (segments : after.segments = w.segments) (gate : after.gate = w.gate)
    (fewer : ∀ seq, references w seq = references after seq + if seq = spillSegmentOf remoteId then 1 else 0)
    (sound : Kills w.store remoteId → w.gate.isSweeping = false) : Tracked after := by
  have frame := derefSegment store
  have counted : ∀ seq, after.store.liveCounts seq = references after seq := by
    intro seq
    rw [store, derefCounts, tracked.counts, fewer]
    omega
  have dead : after.store.deadSegments =
      w.store.deadSegments ++ if Kills w.store remoteId then [spillSegmentOf remoteId] else [] := by
    rw [store, derefDead]
  refine ⟨fillingFrame tracked.filling frame (Or.inl gate), counted, ?_, fun seq stored => ?_,
    fun rest sweeping seq mem stored => ?_⟩
  · have before := tracked.zero
    rw [store, derefCounts]
    omega
  · rw [segments] at stored
    rw [frame.openSeq, frame.buffer, dead]
    rcases tracked.queued seq stored with live | queued | opened
    · by_cases same : seq = spillSegmentOf remoteId
      · by_cases kills : Kills w.store remoteId
        · rw [if_pos kills, same]
          exact Or.inr (Or.inl (List.mem_append_right _ (List.mem_singleton_self _)))
        · by_cases gone : after.store.liveCounts seq = 0
          · refine Or.inr (Or.inr ?_)
            rw [store, derefCounts, if_pos same] at gone
            by_contra closed
            exact kills ⟨by rw [← same]; omega, same ▸ closed⟩
          · exact Or.inl gone
      · refine Or.inl ?_
        rw [store, derefCounts, if_neg same]
        omega
    · exact Or.inr (Or.inl (List.mem_append_left _ queued))
    · exact Or.inr (Or.inr opened)
  · rw [gate] at sweeping
    rw [segments] at stored
    rw [dead] at mem
    have alive : ¬Kills w.store remoteId := by
      intro kills
      have idle := sound kills
      rw [sweeping] at idle
      cases idle
    rw [if_neg alive, List.append_nil] at mem
    exact tracked.removing rest sweeping seq mem stored

theorem outstandingReserved {w : World} (gate : ∀ r, w.gate ≠ .putting (some r)) : outstanding w = w.reserved := by
  unfold outstanding
  split
  · rename_i r put
    exact absurd put (gate r)
  · exact List.append_nil _

theorem referencesSame {w after : World} (residency : ∀ seq, after.residency.map.total (refers seq) =
      w.residency.map.total (refers seq)) (pending : (outstanding after).Perm (outstanding w)) (seq : Nat) :
    references after seq = references w seq := by
  unfold references
  rw [residency, pending.countP_eq]

theorem appendTracked {w after : World} {job : Job} {r : Reservation} (tracked : Tracked w)
    (filling : Filling after) (seq : w.store.openSeq ≠ 0) (id : r.remoteId = (appendBlob w.store job.data).2)
    (residency : after.residency = w.residency) (store : after.store = (appendBlob w.store job.data).1)
    (segments : after.segments = w.segments) (sweeping : after.gate.isSweeping = false)
    (pending : outstanding after = outstanding w ++ [r]) : Tracked after := by
  have small : u32 w.store.openBuffer.length = w.store.openBuffer.length := u32Small tracked.filling.shape.small
  have own : spillSegmentOf r.remoteId = w.store.openSeq := by
    rw [id, appendBlob, small]
    exact segmentLocator tracked.filling.shape.small
  have live : after.store.liveCounts =
      Function.update w.store.liveCounts w.store.openSeq (w.store.liveCounts w.store.openSeq + 1) := by
    rw [store]
    rfl
  have more : ∀ s, w.store.liveCounts s ≤ after.store.liveCounts s := by
    intro s
    rw [live]
    by_cases same : s = w.store.openSeq
    · rw [same, Function.update_self]
      exact Nat.le_succ _
    · rw [Function.update_of_ne same]
  have dead : after.store.deadSegments = w.store.deadSegments := by rw [store]; rfl
  refine ⟨filling, fun s => ?_, ?_, fun s stored => ?_, fun rest now => ?_⟩
  · have before := tracked.counts s
    unfold references at before ⊢
    rw [residency, pending, List.countP_append, List.countP_singleton, live]
    by_cases same : s = w.store.openSeq
    · rw [same, Function.update_self, own]
      rw [same] at before
      simp only [decide_true, if_true]
      omega
    · rw [Function.update_of_ne same, own]
      simp only [Ne.symm same, decide_false, Bool.false_eq_true, if_false]
      omega
  · rw [live, Function.update_of_ne (Ne.symm seq)]
    exact tracked.zero
  · rw [segments] at stored
    rw [dead]
    rcases tracked.queued s stored with before | queued | ⟨rfl, _⟩
    · exact Or.inl (Nat.ne_of_gt (Nat.lt_of_lt_of_le (Nat.pos_of_ne_zero before) (more s)))
    · exact Or.inr (Or.inl queued)
    · refine Or.inl ?_
      rw [live, Function.update_self]
      exact Nat.succ_ne_zero _
  · rw [now] at sweeping
    cases sweeping

theorem appendJobTracked {w : World} {job : Job} (tracked : Tracked w) (gate : w.gate = .free ∨ w.gate.isOpening = true)
    (seq : w.store.openSeq ≠ 0) (data : job.data ≠ [])
    (fits : w.store.openBuffer.length + job.data.length < 2 ^ 32) : Tracked (appendJob segmentTarget w job) := by
  have filling := @fillingAppendJob segmentTarget w job tracked.filling seq data fits
  have nobody : outstanding w = w.reserved := by
    refine outstandingReserved fun r put => ?_
    rw [put] at gate
    rcases gate with free | opening
    · cases free
    · cases opening
  let r : Reservation := ⟨job.offset, job.data.length, (appendBlob w.store job.data).2, job.diverted⟩
  unfold appendJob at filling ⊢
  dsimp only at filling ⊢
  split
  · rename_i full
    rw [if_pos full] at filling
    refine @appendTracked w _ job r tracked filling seq rfl rfl rfl rfl rfl ?_
    rw [nobody]
    rfl
  · rename_i room
    rw [if_neg room] at filling
    refine @appendTracked w _ job r tracked filling seq rfl rfl rfl rfl rfl ?_
    rw [nobody]
    simp only [outstanding, List.append_nil, r]

theorem spillTracked {w : World} {job : Job} (tracked : Tracked w) (free : w.gate = .free) (data : job.data ≠ [])
    (fits : Fits w job) : Tracked (spillBlob segmentTarget w job) := by
  have filling := @fillingSpill segmentTarget w job tracked.filling data fits
  unfold spillBlob at filling ⊢
  by_cases empty : w.store.openBuffer = []
  · have unjournaled : (openSegment w.store).openJournaled = false := by simp [SpillStore.openSegment, empty]
    simp only [unjournaled, Bool.false_eq_true, if_false] at filling ⊢
    have opened : (openSegment w.store).liveCounts = w.store.liveCounts ∧
        (openSegment w.store).deadSegments = w.store.deadSegments := by simp [SpillStore.openSegment, empty]
    refine trackedFrame tracked filling opened.1 (referencesSame (fun _ => rfl) (List.Perm.of_eq ?_)) rfl opened.2
      (fun bytes => absurd empty bytes) fun rest sweeping => by cases sweeping
    simp only [outstanding, free]
  · have same : openSegment w.store = w.store := by simp [SpillStore.openSegment, empty]
    simp only [same, (tracked.filling.shape.journaled empty).1, if_true]
    exact appendJobTracked tracked (Or.inl free) (tracked.filling.numbered (Or.inl empty)) data fits.1

-- The gate is released, or moves on without a spilled blob waiting for its segment.
theorem gateTracked {w after : World} (tracked : Tracked w) (filling : Filling after)
    (store : after.store.liveCounts = w.store.liveCounts ∧ after.store.deadSegments = w.store.deadSegments)
    (same : SameSegment w after) (residency : after.residency = w.residency) (segments : after.segments = w.segments)
    (reserved : after.reserved = w.reserved) (before : ∀ r, w.gate ≠ .putting (some r))
    (later : ∀ r, after.gate ≠ .putting (some r))
    (removing : ∀ rest, after.gate = .sweeping rest → w.gate = .sweeping rest ∨ rest = w.store.deadSegments) :
    Tracked after := by
  refine trackedFrame tracked filling store.1 (referencesSame (fun _ => by rw [residency]) (List.Perm.of_eq ?_)) segments
    store.2 (fun bytes => ⟨same.openSeq, same.buffer ▸ bytes⟩) removing
  rw [outstandingReserved before, outstandingReserved later, reserved]

theorem journalTracked {w : World} {put} (tracked : Tracked w) : Tracked (journalPut segmentTarget w put) := by
  have filling := @fillingJournal segmentTarget w put tracked.filling
  unfold journalPut at filling ⊢
  split
  · rename_i job record gate
    have opening : w.gate.isOpening = true := by rw [gate]; rfl
    obtain ⟨data, small⟩ := tracked.filling.shape.opening job record gate
    have empty := openingEmpty tracked.filling.shape opening
    have waiting : ∀ r, w.gate ≠ .putting (some r) := fun r put => by rw [gate] at put; cases put
    rw [gate] at filling
    dsimp only at filling ⊢
    split
    · refine appendJobTracked ?_ (Or.inr opening) (tracked.filling.numbered (Or.inr opening)) data
        (by simpa [empty] using small)
      exact gateTracked tracked (fillingFrame tracked.filling ⟨rfl, rfl, rfl, rfl⟩ (Or.inl rfl)) ⟨rfl, rfl⟩
        ⟨rfl, rfl, rfl, rfl⟩ rfl rfl rfl waiting waiting fun rest sweeping => Or.inl sweeping
    · rename_i failed
      rw [if_neg failed] at filling
      exact gateTracked tracked filling ⟨rfl, rfl⟩ ⟨rfl, rfl, rfl, rfl⟩ rfl rfl rfl waiting
        (fun r put => by cases put) fun rest sweeping => by cases sweeping
  · rename_i record gate
    rw [gate] at filling
    exact gateTracked tracked filling ⟨rfl, rfl⟩ ⟨rfl, rfl, rfl, rfl⟩ rfl rfl rfl
      (fun r put => by rw [gate] at put; cases put) (fun r put => by cases put) fun rest sweeping => by cases sweeping
  · exact tracked

/-! ## Recording what was spilled -/

theorem recordedTotal (state : State) (r : Residency) (offset size remoteId seq : Nat) (kind : state.spilled = true)
    (unspilled : ∀ e ∈ find r offset, e.state.spilled = false) :
    (markSpilledAs layout state r offset size remoteId).map.total (refers seq) =
      r.map.total (refers seq) + if seq = spillSegmentOf remoteId then 1 else 0 := by
  have balance := DenseMap.totalInsert layout r.map offset { getOrCreate r offset size with
    state := state
    remoteId := remoteId
    durable := false
    markedGeneration := r.generation } (refers seq)
  have old : ((r.map.find offset).map (refers seq)).getD 0 = 0 := by
    cases found : r.map.find offset with
    | none => rfl
    | some e => simp [refers, unspilled e found]
  have new : refers seq { getOrCreate r offset size with
      state := state
      remoteId := remoteId
      durable := false
      markedGeneration := r.generation } = if seq = spillSegmentOf remoteId then 1 else 0 := by
    by_cases same : seq = spillSegmentOf remoteId
    · simp [refers, kind, same]
    · simp [refers, kind, same, Ne.symm same]
  rw [old, new] at balance
  exact balance

theorem recordTracked {w : World} {index r} {state : State} (tracked : Tracked w) (here : w.reserved[index]? = some r)
    (kind : state.spilled = true) (unspilled : ∀ e ∈ find w.residency r.offset, e.state.spilled = false) :
    Tracked { w with
      reserved := w.reserved.eraseIdx index
      residency := markSpilledAs layout state w.residency r.offset r.size r.remoteId } := by
  refine trackedFrame tracked (fillingFrame tracked.filling ⟨rfl, rfl, rfl, rfl⟩ (Or.inl rfl)) rfl (fun seq => ?_) rfl rfl
    (fun bytes => ⟨rfl, bytes⟩) fun rest sweeping => Or.inl sweeping
  have total := @recordedTotal layout state w.residency r.offset r.size r.remoteId seq kind unspilled
  have taken := takenReferences here seq
  simp only [references, outstanding] at taken ⊢
  rw [total]
  omega

theorem markTracked {w : World} {index} (tracked : Tracked w) (keeps : Keeps w (.markReserved index)) :
    Tracked (markReserved layout w index) := by
  unfold markReserved
  split
  · exact tracked
  rename_i r here
  have keeps := keeps r here
  dsimp only
  split
  · rename_i diverted
    simp only [diverted, if_true] at keeps
    exact recordTracked tracked here rfl keeps
  rename_i local'
  split
  · rename_i known
    obtain ⟨e, found⟩ := Option.isSome_iff_exists.mp known
    have keeps := keeps e found
    rw [if_neg local'] at keeps
    exact derefTracked tracked rfl rfl rfl (takenReferences here) keeps
  · rename_i unknown
    refine recordTracked tracked here rfl fun e found => ?_
    rw [found] at unknown
    exact absurd rfl unknown

theorem uploadTracked {w : World} {offset size remoteId} (tracked : Tracked w)
    (keeps : Keeps w (.noteBlobUploaded offset size remoteId)) : Tracked (noteBlobUploaded layout w offset size remoteId) := by
  have total := @uploadedTotal layout w.residency offset size remoteId
  have reference : (markUploaded layout w.residency offset size remoteId).2 =
      spillReference (getOrCreate w.residency offset size) := rfl
  simp only [Keeps] at keeps
  unfold noteBlobUploaded
  dsimp only
  rw [reference]
  cases found : find w.residency offset with
  | none =>
    have none_ : spillReference (getOrCreate w.residency offset size) = 0 := by
      simp [getOrCreate, found, spillReference, State.spilled]
    rw [if_pos none_]
    refine trackedFrame tracked (fillingFrame tracked.filling ⟨rfl, rfl, rfl, rfl⟩ (Or.inl rfl)) rfl
      (referencesSame (fun seq => ?_) (List.Perm.refl _)) rfl rfl (fun bytes => ⟨rfl, bytes⟩)
      fun rest sweeping => Or.inl sweeping
    have balance := total seq
    simpa [found] using balance
  | some e =>
    have own : getOrCreate w.residency offset size = e := by simp [getOrCreate, found]
    rw [own] at keeps ⊢
    by_cases spilled : e.state.spilled = true
    · have id : spillReference e = e.remoteId := by simp [spillReference, spilled]
      have balance : ∀ seq, w.residency.map.total (refers seq) =
          (markUploaded layout w.residency offset size remoteId).1.map.total (refers seq) +
            if seq = spillSegmentOf e.remoteId then 1 else 0 := by
        intro seq
        have whole := total seq
        simp only [found, Option.map_some, Option.getD_some, refers, spilled, true_and] at whole
        rw [← whole]
        by_cases same : seq = spillSegmentOf e.remoteId
        · simp [same]
        · simp [same, Ne.symm same]
      have counted : 0 < references w (spillSegmentOf e.remoteId) := by
        unfold references
        rw [balance, if_pos rfl]
        omega
      have nonzero : e.remoteId ≠ 0 := by
        intro zero
        rw [← tracked.counts, zero, spillSegmentOf, Nat.zero_div, tracked.zero] at counted
        exact Nat.lt_irrefl _ counted
      rw [id] at keeps ⊢
      rw [if_neg nonzero]
      refine derefTracked tracked rfl rfl rfl (fun seq => ?_) keeps
      have whole := balance seq
      simp only [references, outstanding] at whole ⊢
      omega
    · have none_ : spillReference e = 0 := by simp [spillReference, spilled]
      rw [if_pos none_]
      refine trackedFrame tracked (fillingFrame tracked.filling ⟨rfl, rfl, rfl, rfl⟩ (Or.inl rfl)) rfl
        (referencesSame (fun seq => ?_) (List.Perm.refl _)) rfl rfl (fun bytes => ⟨rfl, bytes⟩)
        fun rest sweeping => Or.inl sweeping
      have balance := total seq
      simpa [found, refers, spilled] using balance

/-! ## Checkpoints -/

theorem forgetTracked {w : World} (freed : List Nat) {r s} (idle : w.gate.isSweeping = false)
    (tracked : Tracked { w with residency := r, store := s }) : Tracked { w with
      residency := (forgetFreed layout r s freed).1
      store := (forgetFreed layout r s freed).2 } := by
  induction freed generalizing r s with
  | nil => exact tracked
  | cons offset rest ih =>
    unfold forgetFreed
    cases gone : forget layout r offset with
    | none => exact ih tracked
    | some both =>
      obtain ⟨dropped, forgotten⟩ := both
      obtain ⟨e, found, map, spilled, remoteId⟩ := forgetFound gone
      have total : ∀ seq, dropped.map.total (refers seq) + refers seq e = r.map.total (refers seq) :=
        fun seq => map ▸ DenseMap.totalErase found (refers seq)
      dsimp only
      refine ih ?_
      split
      · rename_i counted
        rw [spilled] at counted
        rw [remoteId]
        refine derefTracked tracked rfl rfl rfl (fun seq => ?_) fun _ => idle
        have whole := total seq
        simp only [refers, counted, true_and] at whole
        simp only [references, outstanding] at whole ⊢
        rw [← whole]
        by_cases same : seq = spillSegmentOf e.remoteId
        · simp only [same, if_true]
          omega
        · simp only [same, Ne.symm same, if_false]
          omega
      · rename_i counted
        rw [spilled] at counted
        refine trackedFrame tracked (fillingFrame tracked.filling ⟨rfl, rfl, rfl, rfl⟩ (Or.inl rfl)) rfl
          (referencesSame (fun seq => ?_) (List.Perm.refl _)) rfl rfl (fun bytes => ⟨rfl, bytes⟩)
          fun rest sweeping => Or.inl sweeping
        have whole := total seq
        simpa [refers, counted] using whole

theorem snapshotTracked {w : World} {freed clean} (tracked : Tracked w) (idle : w.gate.isSweeping = false) :
    Tracked (snapshot layout w freed clean) := by
  have forgotten := @forgetTracked layout w freed _ _ idle tracked
  have filling := @fillingSnapshot layout w freed clean tracked.filling
  unfold snapshot at filling ⊢
  exact trackedFrame forgotten filling rfl (referencesSame (fun _ => rfl) (List.Perm.refl _)) rfl rfl
    (fun bytes => ⟨rfl, bytes⟩) fun rest sweeping => Or.inl sweeping

theorem storedCases {w : World} {put seq} (stored : storedSegments w put seq ≠ none) :
    w.segments seq ≠ none ∨ seq = w.store.openSeq := by
  unfold storedSegments at stored
  split at stored
  · by_cases same : seq = w.store.openSeq
    · exact Or.inr same
    · rw [Function.update_of_ne same] at stored
      exact Or.inl stored
  · exact Or.inl stored

theorem flushedTracked {w after : World} {put} (tracked : Tracked w) (filling : Filling after)
    (live : w.store.liveCounts w.store.openSeq ≠ 0) (residency : after.residency = w.residency)
    (store : after.store = flushed w.store) (segments : after.segments = storedSegments w put)
    (idle : after.gate.isSweeping = false) (pending : outstanding after = outstanding w) : Tracked after := by
  refine ⟨filling, fun seq => ?_, ?_, fun seq stored => ?_, fun rest sweeping => ?_⟩
  · rw [store, referencesSame (fun _ => by rw [residency]) (List.Perm.of_eq pending)]
    exact tracked.counts seq
  · rw [store]
    exact tracked.zero
  · rw [segments] at stored
    rw [store]
    rcases storedCases stored with before | rfl
    · rcases tracked.queued seq before with counted | queued | ⟨rfl, _⟩
      · exact Or.inl counted
      · exact Or.inr (Or.inl queued)
      · exact Or.inl live
    · exact Or.inl live
  · rw [sweeping] at idle
    cases idle

theorem failedTracked {w after : World} {put} (tracked : Tracked w) (filling : Filling after)
    (bytes : w.store.openBuffer ≠ []) (residency : after.residency = w.residency) (store : after.store = w.store)
    (segments : after.segments = storedSegments w put) (idle : after.gate.isSweeping = false)
    (pending : outstanding after = outstanding w) : Tracked after := by
  refine ⟨filling, fun seq => ?_, ?_, fun seq stored => ?_, fun rest sweeping => ?_⟩
  · rw [store, referencesSame (fun _ => by rw [residency]) (List.Perm.of_eq pending)]
    exact tracked.counts seq
  · exact store ▸ tracked.zero
  · rw [segments] at stored
    rw [store]
    rcases storedCases stored with before | opened
    · exact tracked.queued seq before
    · exact Or.inr (Or.inr ⟨opened, bytes⟩)
  · rw [sweeping] at idle
    cases idle

theorem putTracked {w : World} {put} (tracked : Tracked w) (gate : w.gate.isPut = true)
    (keeps : Keeps w (.segmentPut put)) : Tracked (segmentPut layout w put) := by
  have bytes := tracked.filling.shape.putting gate
  have filling := @fillingPut layout w put tracked.filling
  simp only [Keeps] at keeps
  unfold segmentPut at filling ⊢
  dsimp only at filling ⊢
  split
  · rename_i r putting
    have ok := keeps.1 (by rw [putting]; simp)
    rw [putting] at filling
    dsimp only at filling
    rw [if_pos ok] at filling ⊢
    refine flushedTracked tracked filling (keeps.2 ok) rfl rfl rfl rfl ?_
    simp [outstanding, putting]
  · rename_i freed clean putting flushing
    split
    · rename_i ok
      refine snapshotTracked ?_ rfl
      refine flushedTracked tracked (fillingFlushed tracked.filling rfl rfl) (keeps.2 ok) rfl rfl rfl rfl ?_
      simp [outstanding, putting]
    · rename_i failed
      rw [putting, flushing] at filling
      dsimp only at filling
      rw [if_neg failed] at filling
      refine failedTracked tracked filling bytes rfl rfl rfl rfl ?_
      simp [outstanding, putting]
  · exact tracked

theorem flushTracked {w : World} (tracked : Tracked w) (free : w.gate = .free) : Tracked (flush layout w) := by
  unfold flush
  split
  · split
    · exact snapshotTracked tracked (by rw [free]; rfl)
    · rename_i bytes
      refine trackedFrame tracked (fillingFrame tracked.filling ⟨rfl, rfl, rfl, rfl⟩ (Or.inr ⟨rfl, fun _ => bytes⟩)) rfl
        (referencesSame (fun _ => rfl) (List.Perm.of_eq ?_)) rfl rfl (fun _ => ⟨rfl, bytes⟩)
        fun rest sweeping => by cases sweeping
      simp [outstanding, free]
  · exact tracked

theorem commitTracked {w : World} {settled} (tracked : Tracked w) : Tracked (commit w settled) := by
  unfold commit
  split
  · split
    · exact trackedFrame tracked (fillingFrame tracked.filling ⟨rfl, rfl, rfl, rfl⟩ (Or.inl rfl)) rfl
        (referencesSame (fun seq => settledTotal w.residency _ seq) (List.Perm.refl _)) rfl rfl
        (fun bytes => ⟨rfl, bytes⟩) fun rest sweeping => Or.inl sweeping
    · exact trackedFrame tracked (fillingFrame tracked.filling ⟨rfl, rfl, rfl, rfl⟩ (Or.inl rfl)) rfl (fun _ => rfl) rfl rfl
        (fun bytes => ⟨rfl, bytes⟩) fun rest sweeping => Or.inl sweeping
  · exact tracked

theorem removeTracked {w : World} (tracked : Tracked w) : Tracked (removeSegment w true) := by
  unfold removeSegment
  split
  · rename_i gone rest gate
    have kept : ∀ seq, Function.update w.segments gone none seq ≠ none → seq ≠ gone ∧ w.segments seq ≠ none := by
      intro seq stored
      by_cases same : seq = gone
      · rw [same, Function.update_self] at stored
        exact absurd rfl stored
      · rw [Function.update_of_ne same] at stored
        exact ⟨same, stored⟩
    refine ⟨fillingFrame tracked.filling ⟨rfl, rfl, rfl, rfl⟩ (Or.inr ⟨rfl, fun put => by cases put⟩), fun seq => ?_,
      tracked.zero, fun seq stored => tracked.queued seq (kept seq stored).2, ?_⟩
    · refine (tracked.counts seq).trans ?_
      simp [references, outstanding, gate]
    · rintro _ ⟨rfl⟩ seq mem stored
      obtain ⟨other, there⟩ := kept seq stored
      exact (List.mem_cons.mp (tracked.removing _ gate seq mem there)).resolve_left other
  · exact tracked

theorem finishTracked {w : World} (tracked : Tracked w) (gate : w.gate = .sweeping []) : Tracked (finishRemoving w) := by
  have swept : ∀ seq, w.segments seq ≠ none → seq ∉ w.store.deadSegments := fun seq stored mem =>
    absurd (tracked.removing [] gate seq mem stored) List.not_mem_nil
  have finished : ∀ next : Gate, next.isPut = false → next.isOpening = false → next.isSweeping = false →
      Tracked { w with store := endSweep w.store, gate := next } := by
    intro next unput still unswept
    refine ⟨fillingFrame tracked.filling ⟨rfl, rfl, rfl, rfl⟩ (Or.inr ⟨still, fun put => ?_⟩), fun seq => ?_, tracked.zero,
      fun seq stored => ?_, fun rest sweeping => ?_⟩
    · exact absurd (unput.symm.trans put) Bool.false_ne_true
    · refine (tracked.counts seq).trans ?_
      unfold references
      have before : outstanding w = w.reserved := by simp [outstanding, gate]
      rw [before, outstandingReserved fun r put => ?_]
      rw [show next = .putting (some r) from put] at unput
      cases unput
    · exact (tracked.queued seq stored).imp_right fun either => Or.inr (either.resolve_left (swept seq stored))
    · rw [show next = .sweeping rest from sweeping] at unswept
      cases unswept
  unfold finishRemoving
  dsimp only
  split
  · exact finished _ rfl rfl rfl
  · exact finished _ rfl rfl rfl

theorem trackedPerform {w : World} {a} (tracked : Tracked w) (allowed : Allowed w a) (keeps : Keeps w a) :
    Tracked (perform layout segmentTarget w a) := by
  cases a with
  | spillBlob job => exact spillTracked tracked allowed.1 allowed.2 keeps
  | journalPut put => exact journalTracked tracked
  | segmentPut put => exact putTracked tracked allowed keeps
  | markReserved index => exact markTracked tracked keeps
  | noteBlobUploaded offset size remoteId => exact uploadTracked tracked keeps
  | writeIndex freed clean =>
    exact trackedFrame tracked (fillingFrame tracked.filling ⟨rfl, rfl, rfl, rfl⟩ (Or.inl rfl)) rfl (fun _ => rfl) rfl rfl
      (fun bytes => ⟨rfl, bytes⟩) fun rest sweeping => Or.inl sweeping
  | flush => exact flushTracked tracked allowed.1
  | abort =>
    exact trackedFrame tracked (fillingFrame tracked.filling ⟨rfl, rfl, rfl, rfl⟩ (Or.inl rfl)) rfl (fun _ => rfl) rfl rfl
      (fun bytes => ⟨rfl, bytes⟩) fun rest sweeping => Or.inl sweeping
  | commit settled => exact commitTracked tracked
  | sweep =>
    refine gateTracked tracked (fillingFrame tracked.filling ⟨rfl, rfl, rfl, rfl⟩ (Or.inr ⟨rfl, fun put => by cases put⟩))
      ⟨rfl, rfl⟩ ⟨rfl, rfl, rfl, rfl⟩ rfl rfl rfl (fun r put => ?_) (fun r put => by cases put) ?_
    · rw [allowed.1] at put
      cases put
    · rintro _ ⟨rfl⟩
      exact Or.inr rfl
  | removeSegment removed =>
    cases show removed = true from keeps
    exact removeTracked tracked
  | finishRemoving => exact finishTracked tracked allowed
  | removeJournal removed =>
    refine gateTracked tracked (fillingFrame tracked.filling ⟨rfl, rfl, rfl, rfl⟩ (Or.inr ⟨rfl, fun put => by cases put⟩))
      ⟨rfl, rfl⟩ ⟨rfl, rfl, rfl, rfl⟩ rfl rfl rfl (fun r put => ?_) (fun r put => by cases put)
      fun rest sweeping => by cases sweeping
    rw [show w.gate = .unjournaling from allowed] at put
    cases put
  | crash removed journalRemoved => cases keeps

/-! ## No segment leaks -/

-- A segment is referred to by residency entries and by blobs whose spilling is not recorded yet.
structure Accounted (w : World) : Prop where
  counts : ∀ seq, w.store.liveCounts seq = references w seq
  queued : ∀ seq, w.segments seq ≠ none → references w seq = 0 →
    seq ∈ w.store.deadSegments ∨ seq = w.store.openSeq ∧ w.store.openBuffer ≠ []
  swept : w.gate = .sweeping [] → ∀ seq, w.segments seq ≠ none → references w seq = 0 →
    seq = w.store.openSeq ∧ w.store.openBuffer ≠ []

theorem trackedAccounted {w : World} (tracked : Tracked w) : Accounted w := by
  have queued : ∀ seq, w.segments seq ≠ none → references w seq = 0 →
      seq ∈ w.store.deadSegments ∨ seq = w.store.openSeq ∧ w.store.openBuffer ≠ [] := by
    intro seq stored unused
    exact (tracked.queued seq stored).resolve_left fun live => live ((tracked.counts seq).trans unused)
  refine ⟨tracked.counts, queued, fun gate seq stored unused => ?_⟩
  refine (queued seq stored unused).resolve_left fun mem => ?_
  exact absurd (tracked.removing [] gate seq mem stored) List.not_mem_nil

variable (layout segmentTarget)

theorem trackedHolds : Inductive ((system layout segmentTarget).under Keeps) Tracked := by
  constructor
  · intro w first
    cases first
    exact startTracked
  · intro w a after tracked step
    obtain ⟨keeps, allowed, rfl⟩ := step
    exact trackedPerform tracked allowed keeps

theorem segmentsAccounted {w} (reach : Reachable ((system layout segmentTarget).under Keeps) w) : Accounted w :=
  trackedAccounted (reachableInvariant (trackedHolds layout segmentTarget) reach)

-- The last reference goes after the segment was flushed, and the sweep deletes it.
def collectedActions : List Action :=
  [.spillBlob ⟨100, [1, 2, 3, 4], false⟩, .journalPut .ok, .segmentPut .ok, .markReserved 0,
    .noteBlobUploaded 100 4 (7 * 2 ^ 32), .writeIndex [] false, .flush, .commit true, .sweep, .removeSegment true]

theorem collectedAccounted : Accounted (collectedActions.foldl (perform (appendLayout Nat Entry) 4) start) :=
  segmentsAccounted _ _ (reachableAllowed (by decide))

/-! The last reference goes while the segment is still filled: it is flushed with no reference left. -/

def deadFlushActions : List Action :=
  [.spillBlob ⟨100, [1, 2], false⟩, .journalPut .ok, .markReserved 0, .noteBlobUploaded 100 2 (7 * 2 ^ 32),
    .writeIndex [] false, .flush, .segmentPut .ok, .commit true, .sweep]

def Action.isCrash : Action → Bool
  | .crash _ _ => true
  | _ => false

theorem deadSegmentFlushed : ¬∀ layout segmentTarget w,
    Reachable ((system layout segmentTarget).under fun _ a => Action.isCrash a = false) w → Accounted w := by
  intro all
  have run : AllAllowed (fun w a => Action.isCrash a = false ∧ Allowed w a) (perform (appendLayout Nat Entry) 4) start
      deadFlushActions := by decide
  have accounted := all _ _ _ (reachableAllowed run)
  have left := accounted.swept (by decide) 1 (by decide) (by decide)
  exact absurd left.2 (by decide)

end Dewfall.SpillSegments
