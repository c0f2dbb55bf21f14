import Dewfall.Core.SpillSegments

/-! Which segment objects the journal records, over runs and across crashes: what the next open finds.
The journal is one object; its bytes are left out. -/
namespace Dewfall.SpillJournal
open General General.Transition BlobResidency SpillStore SpillRuns SpillSegments

variable {layout : Layout Nat Entry} {segmentTarget : Nat}

/-! ## Collecting orphans -/

-- What `gc_orphans` deletes.
def orphans (w : World) : List Nat :=
  (w.journal.getD []).filter fun seq => (replay (deserialize w.committed)).liveCounts seq = 0

theorem unreferencedMentions (table : Table) (seq : Nat) :
    (replay (deserialize table)).liveCounts seq = 0 ↔ ¬Mentions table seq := by
  have counted := replayCounts (deserialize table).map.entries fresh seq
  unfold replay
  rw [counted, show fresh.liveCounts seq = 0 from rfl, Nat.zero_add, List.sum_eq_zero_iff]
  constructor
  · rintro zero ⟨e, mem, spilled, same⟩
    have entry : (e.1, (⟨e.2.size, restoredState table.clean e.2.state, true, 0, 0, e.2.remoteId⟩ : Entry)) ∈
        (deserialize table).map.entries := List.mem_map.mpr ⟨e, mem, rfl⟩
    have one := zero _ (List.mem_map.mpr ⟨_, entry, rfl⟩)
    simp [refers, restoredSpilled, spilled, same] at one
  · intro unmentioned n mem
    obtain ⟨e, entry, rfl⟩ := List.mem_map.mp mem
    obtain ⟨row, there, rfl⟩ := List.mem_map.mp entry
    unfold refers
    dsimp only
    rw [restoredSpilled]
    split
    · rename_i both
      exact absurd ⟨row, there, both⟩ unmentioned
    · rfl

theorem orphanIff {w : World} {seq} : seq ∈ orphans w ↔ seq ∈ w.journal.getD [] ∧ ¬Mentions w.committed seq := by
  unfold orphans
  rw [List.mem_filter, decide_eq_true_eq, unreferencedMentions]

structure Recorded (w : World) : Prop where
  found : ∀ seq, w.segments seq ≠ none → Mentions w.committed seq ∨ seq ∈ orphans w
  spared : ∀ seq ∈ orphans w, ¬Mentions w.committed seq

-- A step that leaves no segment out of both the committed table and the journal.
def Records (w : World) : Action → Prop
  | .spillBlob job => Fits w job
  | .commit _ => ∀ e ∈ w.committed.rows.entries, e.2.state.spilled = true →
      w.segments (spillSegmentOf e.2.remoteId) ≠ none →
      Mentions (pendingTable w) (spillSegmentOf e.2.remoteId) ∨
        spillSegmentOf e.2.remoteId ∈ w.store.undurableSegments
  | .sweep => ∀ seq ∈ w.store.undurableSegments, w.segments seq ≠ none →
      Mentions w.committed seq ∨ seq ∈ w.store.deadSegments
  | .removeSegment removed => removed = true
  | .crash removed _ => ∀ seq ∈ orphans w, w.segments seq ≠ none → seq ∈ removed
  | _ => True

instance (w a) : Decidable (Records w a) := by
  apply SpillRuns.Action.casesOn (motive := fun a => Decidable (Records w a)) a
  all_goals
    intros
    dsimp only [Records]
    infer_instance

def Gate.isSweep : Gate → Bool
  | .sweeping _ | .sweepJournal _ | .unjournaling => true
  | _ => false

structure Journaled (w : World) : Prop where
  filling : Filling w
  stored : ∀ seq, w.segments seq ≠ none → Mentions w.committed seq ∨ seq ∈ w.journal.getD []
  known : ∀ seq, w.segments seq ≠ none → Mentions w.committed seq ∨ seq ∈ w.store.undurableSegments ∨
    (w.store.openBuffer ≠ [] ∧ seq = w.store.openSeq) ∨ ∃ rest, w.gate = .sweeping rest ∧ seq ∈ rest
  undurable : ∀ seq ∈ w.store.undurableSegments, seq ∈ w.journal.getD []
  opened : w.store.openBuffer ≠ [] → w.store.openSeq ∈ w.journal.getD []
  record : ∀ job record, w.gate = .journaling job record → record = journalRecord w.store
  shrunk : ∀ record, w.gate = .sweepJournal record → record = journalRecord w.store
  swept : Gate.isSweep w.gate = true → w.store.undurableSegments = []
  emptied : w.gate = .unjournaling → w.store.openBuffer = []

theorem journaledRecorded {w : World} (journaled : Journaled w) : Recorded w := by
  refine ⟨fun seq stored => ?_, fun seq mem => (orphanIff.mp mem).2⟩
  by_cases mentioned : Mentions w.committed seq
  · exact Or.inl mentioned
  · exact Or.inr (orphanIff.mpr ⟨(journaled.stored seq stored).resolve_left mentioned, mentioned⟩)

theorem startJournaled : Journaled start :=
  ⟨startTracked.filling, fun _ stored => absurd rfl stored, fun _ stored => absurd rfl stored,
    fun _ mem => (nomatch mem), fun bytes => absurd rfl bytes, fun _ _ gate => (nomatch gate),
    fun _ gate => (nomatch gate), fun gate => (nomatch gate), fun gate => (nomatch gate)⟩

-- Outside a sweep what is not committed is undurable, or being filled.
theorem knownOutside {w : World} (journaled : Journaled w) (idle : w.gate.isSweeping = false) {seq}
    (stored : w.segments seq ≠ none) : Mentions w.committed seq ∨ seq ∈ w.store.undurableSegments ∨
      w.store.openBuffer ≠ [] ∧ seq = w.store.openSeq := by
  rcases journaled.known seq stored with mentioned | undurable | opened | ⟨rest, sweeping, _⟩
  · exact Or.inl mentioned
  · exact Or.inr (Or.inl undurable)
  · exact Or.inr (Or.inr opened)
  · rw [sweeping] at idle
    cases idle

theorem journaledFrame {w after : World} (journaled : Journaled w) (filling : Filling after)
    (segments : after.segments = w.segments) (journal : after.journal = w.journal)
    (committed : after.committed = w.committed) (undurable : after.store.undurableSegments = w.store.undurableSegments)
    (buffer : after.store.openBuffer = w.store.openBuffer) (openSeq : after.store.openSeq = w.store.openSeq)
    (gate : after.gate = w.gate ∨ w.gate.isSweeping = false ∧ (after.gate = .free ∨ after.gate.isPut = true)) :
    Journaled after := by
  have plain : ∀ next : Gate, (next = .free ∨ next.isPut = true) → Gate.isSweep next = false ∧ next.isOpening = false := by
    rintro next (rfl | put)
    · exact ⟨rfl, rfl⟩
    · cases next with
      | putting r => exact ⟨rfl, rfl⟩
      | _ => cases put
  have same : journalRecord after.store = journalRecord w.store := by
    unfold journalRecord
    rw [undurable, openSeq]
  refine ⟨filling, fun seq stored => ?_, fun seq stored => ?_, ?_, ?_, fun job record now => ?_, fun record now => ?_,
    fun now => ?_, fun now => ?_⟩
  · rw [segments] at stored
    rw [committed, journal]
    exact journaled.stored seq stored
  · rw [segments] at stored
    rw [committed, undurable, buffer, openSeq]
    rcases gate with kept | ⟨idle, _⟩
    · rw [kept]
      exact journaled.known seq stored
    · exact (knownOutside journaled idle stored).imp_right fun either => either.imp_right Or.inl
  · rw [undurable, journal]
    exact journaled.undurable
  · rw [buffer, openSeq, journal]
    exact journaled.opened
  · rcases gate with kept | ⟨_, next⟩
    · rw [same]
      exact journaled.record job record (kept ▸ now)
    · have closed := (plain _ next).2
      rw [now] at closed
      cases closed
  · rcases gate with kept | ⟨_, next⟩
    · rw [same]
      exact journaled.shrunk record (kept ▸ now)
    · have closed := (plain _ next).1
      rw [now] at closed
      cases closed
  · rw [undurable]
    rcases gate with kept | ⟨_, next⟩
    · exact journaled.swept (kept ▸ now)
    · exact absurd ((plain _ next).1.symm.trans now) Bool.false_ne_true
  · rw [buffer]
    rcases gate with kept | ⟨_, next⟩
    · exact journaled.emptied (kept ▸ now)
    · have closed := (plain _ next).1
      rw [now] at closed
      cases closed

theorem journaledAppend {w : World} {job : Job} (journaled : Journaled w)
    (gate : w.gate = .free ∨ w.gate.isOpening = true) (seq : w.store.openSeq ≠ 0) (data : job.data ≠ [])
    (fits : w.store.openBuffer.length + job.data.length < 2 ^ 32)
    (listed : w.store.openSeq ∈ w.journal.getD []) : Journaled (appendJob segmentTarget w job) := by
  have filling := @fillingAppendJob segmentTarget w job journaled.filling seq data fits
  have idle : w.gate.isSweeping = false := by
    cases now : w.gate with
    | sweeping rest =>
      rw [now] at gate
      rcases gate with free | opening
      · cases free
      · cases opening
    | _ => rfl
  have more : w.store.openBuffer ++ job.data ≠ [] := fun nil => data (List.append_eq_nil_iff.mp nil).2
  have known : ∀ s, w.segments s ≠ none → Mentions w.committed s ∨ s ∈ w.store.undurableSegments ∨
      w.store.openBuffer ++ job.data ≠ [] ∧ s = w.store.openSeq :=
    fun s stored => (knownOutside journaled idle stored).imp_right fun either =>
      either.imp_right fun opened => ⟨more, opened.2⟩
  unfold appendJob at filling ⊢
  dsimp only at filling ⊢
  split
  · rename_i full
    rw [if_pos full] at filling
    exact ⟨filling, journaled.stored, fun s stored => (known s stored).imp_right fun either => either.imp_right Or.inl,
      journaled.undurable, fun _ => listed, fun _ _ gate => (nomatch gate), fun _ gate => (nomatch gate),
      fun gate => (nomatch gate), fun gate => (nomatch gate)⟩
  · rename_i room
    rw [if_neg room] at filling
    exact ⟨filling, journaled.stored, fun s stored => (known s stored).imp_right fun either => either.imp_right Or.inl,
      journaled.undurable, fun _ => listed, fun _ _ gate => (nomatch gate), fun _ gate => (nomatch gate),
      fun gate => (nomatch gate), fun gate => (nomatch gate)⟩

theorem journaledSpill {w : World} {job : Job} (journaled : Journaled w) (free : w.gate = .free) (data : job.data ≠ [])
    (fits : Fits w job) : Journaled (spillBlob segmentTarget w job) := by
  have filling := @fillingSpill segmentTarget w job journaled.filling data fits
  unfold spillBlob at filling ⊢
  by_cases empty : w.store.openBuffer = []
  · have unjournaled : (openSegment w.store).openJournaled = false := by simp [SpillStore.openSegment, empty]
    simp only [unjournaled, Bool.false_eq_true, if_false] at filling ⊢
    have opened : (openSegment w.store).undurableSegments = w.store.undurableSegments ∧
        (openSegment w.store).openBuffer = [] := by simp [SpillStore.openSegment, empty]
    refine ⟨filling, journaled.stored, fun seq stored => ?_, ?_, fun bytes => absurd opened.2 bytes, ?_,
      fun _ gate => (by cases gate), fun gate => (by cases gate), fun gate => (by cases gate)⟩
    · rw [opened.1]
      refine (knownOutside journaled (by rw [free]; rfl) stored).imp_right fun either => Or.inl ?_
      exact either.resolve_right fun both => both.1 empty
    · rw [opened.1]
      exact journaled.undurable
    · rintro _ _ ⟨rfl, rfl⟩
      rfl
  · have same : openSegment w.store = w.store := by simp [SpillStore.openSegment, empty]
    simp only [same, (journaled.filling.shape.journaled empty).1, if_true]
    exact journaledAppend journaled (Or.inl free) (journaled.filling.numbered (Or.inl empty)) data fits.1
      (journaled.opened empty)

-- The journal object is replaced while the store knows every segment that is not committed.
theorem journaledWritten {w after : World} {put} (journaled : Journaled w) (idle : w.gate.isSweeping = false)
    (filling : Filling after) (segments : after.segments = w.segments) (committed : after.committed = w.committed)
    (store : after.store = w.store)
    (journal : after.journal = if Put.stores put then some (journalRecord w.store) else w.journal)
    (gate : after.gate = .free ∨ after.gate = w.gate) : Journaled after := by
  have listed : ∀ seq ∈ journalRecord w.store, put.stores = true → seq ∈ after.journal.getD [] := by
    intro seq mem stores
    rw [journal, if_pos stores]
    exact mem
  have kept : put.stores = false → after.journal = w.journal := fun fails => by
    rw [journal, fails, if_neg Bool.false_ne_true]
  have known : ∀ seq, after.segments seq ≠ none → Mentions after.committed seq ∨
      seq ∈ w.store.undurableSegments ∨ w.store.openBuffer ≠ [] ∧ seq = w.store.openSeq := by
    intro seq stored
    rw [segments] at stored
    rw [committed]
    exact knownOutside journaled idle stored
  refine ⟨filling, fun seq stored => ?_, fun seq stored => ?_, fun seq mem => ?_, fun bytes => ?_, fun job record now => ?_,
    fun record now => ?_, fun now => ?_, fun now => ?_⟩
  · cases stores : put.stores with
    | true =>
      refine (known seq stored).imp_right fun either => listed seq ?_ stores
      rcases either with mem | ⟨_, rfl⟩
      · exact List.mem_append_left _ mem
      · exact List.mem_append_right _ (List.mem_singleton_self _)
    | false =>
      rw [kept stores, committed]
      exact journaled.stored seq (segments ▸ stored)
  · rw [store]
    exact (known seq stored).imp_right fun either => either.imp_right Or.inl
  · rw [store] at mem
    cases stores : put.stores with
    | true => exact listed seq (List.mem_append_left _ mem) stores
    | false => exact kept stores ▸ journaled.undurable seq mem
  · rw [store] at bytes ⊢
    cases stores : put.stores with
    | true => exact listed _ (List.mem_append_right _ (List.mem_singleton_self _)) stores
    | false => exact kept stores ▸ journaled.opened bytes
  · rcases gate with free | same
    · exact nomatch free.symm.trans now
    · exact store ▸ journaled.record job record (same ▸ now)
  · rcases gate with free | same
    · exact nomatch free.symm.trans now
    · exact store ▸ journaled.shrunk record (same ▸ now)
  · rcases gate with free | same
    · rw [free] at now
      cases now
    · exact store ▸ journaled.swept (same ▸ now)
  · rcases gate with free | same
    · exact nomatch free.symm.trans now
    · exact store ▸ journaled.emptied (same ▸ now)

theorem journaledPut {w : World} {put} (journaled : Journaled w) : Journaled (journalPut segmentTarget w put) := by
  have filling := @fillingJournal segmentTarget w put journaled.filling
  unfold journalPut at filling ⊢
  split
  · rename_i job record gate
    have opening : w.gate.isOpening = true := by rw [gate]; rfl
    have idle : w.gate.isSweeping = false := by rw [gate]; rfl
    obtain ⟨data, small⟩ := journaled.filling.shape.opening job record gate
    have empty := openingEmpty journaled.filling.shape opening
    cases journaled.record job record gate
    rw [gate] at filling
    dsimp only at filling ⊢
    split
    · rename_i ok
      subst ok
      refine journaledAppend ?_ (Or.inr opening) (journaled.filling.numbered (Or.inr opening)) data
        (by simpa [empty] using small) (List.mem_append_right _ (List.mem_singleton_self _))
      exact @journaledWritten w _ .ok journaled idle (fillingFrame journaled.filling ⟨rfl, rfl, rfl, rfl⟩ (Or.inl rfl)) rfl
        rfl rfl rfl (Or.inr rfl)
    · rename_i failed
      rw [if_neg failed] at filling
      exact @journaledWritten w _ put journaled idle filling rfl rfl rfl rfl (Or.inl rfl)
  · rename_i record gate
    rw [gate] at filling
    cases journaled.shrunk record gate
    exact @journaledWritten w _ put journaled (by rw [gate]; rfl) filling rfl rfl rfl rfl (Or.inl rfl)
  · exact journaled

theorem forgetUndurable (freed : List Nat) (r : Residency) (s : Store) :
    (forgetFreed layout r s freed).2.undurableSegments = s.undurableSegments := by
  induction freed generalizing r s with
  | nil => rfl
  | cons offset rest ih =>
    unfold forgetFreed
    split
    · exact ih r s
    · rw [ih]
      split
      · unfold deref
        dsimp only
        repeat' split
        all_goals rfl
      · rfl

theorem journaledSnapshot {w : World} {freed clean} (journaled : Journaled w) :
    Journaled (snapshot layout w freed clean) := by
  have same := @forgetSegment layout freed w w.residency w.store ⟨rfl, rfl, rfl, rfl⟩
  exact journaledFrame journaled (fillingSnapshot journaled.filling) rfl rfl rfl (forgetUndurable freed _ _) same.buffer
    same.openSeq (Or.inl rfl)

theorem journaledFlushed {w after : World} {put} (journaled : Journaled w) (filling : Filling after)
    (idle : w.gate.isSweeping = false) (bytes : w.store.openBuffer ≠ []) (store : after.store = flushed w.store)
    (segments : after.segments = storedSegments w put) (journal : after.journal = w.journal)
    (committed : after.committed = w.committed) (gate : after.gate = .free) : Journaled after := by
  have listed := journaled.opened bytes
  refine ⟨filling, fun seq stored => ?_, fun seq stored => ?_, fun seq mem => ?_, fun more => ?_,
    fun _ _ now => (nomatch gate.symm.trans now), fun _ now => (nomatch gate.symm.trans now), fun now => ?_,
    fun now => (nomatch gate.symm.trans now)⟩
  · rw [segments] at stored
    rw [committed, journal]
    rcases storedCases stored with before | rfl
    · exact journaled.stored seq before
    · exact Or.inr listed
  · rw [segments] at stored
    rw [committed, store]
    rcases storedCases stored with before | rfl
    · refine (knownOutside journaled idle before).imp_right fun either => Or.inl ?_
      rcases either with mem | ⟨_, rfl⟩
      · exact List.mem_append_left _ mem
      · exact List.mem_append_right _ (List.mem_singleton_self _)
    · exact Or.inr (Or.inl (List.mem_append_right _ (List.mem_singleton_self _)))
  · rw [store] at mem
    rw [journal]
    rcases List.mem_append.mp mem with before | last
    · exact journaled.undurable seq before
    · rw [List.mem_singleton.mp last]
      exact listed
  · rw [store] at more
    exact absurd rfl more
  · rw [gate] at now
    cases now

theorem journaledFailed {w after : World} {put} (journaled : Journaled w) (filling : Filling after)
    (idle : w.gate.isSweeping = false) (bytes : w.store.openBuffer ≠ []) (store : after.store = w.store)
    (segments : after.segments = storedSegments w put) (journal : after.journal = w.journal)
    (committed : after.committed = w.committed) (gate : after.gate = .free) : Journaled after := by
  have kept := @journaledFrame w { w with gate := .free } journaled
    (fillingFrame journaled.filling ⟨rfl, rfl, rfl, rfl⟩ (Or.inr ⟨rfl, fun put => by cases put⟩)) rfl rfl rfl rfl rfl rfl
    (Or.inr ⟨idle, Or.inl rfl⟩)
  refine ⟨filling, fun seq stored => ?_, fun seq stored => ?_, ?_, ?_, fun _ _ now => (nomatch gate.symm.trans now),
    fun _ now => (nomatch gate.symm.trans now), fun now => ?_, fun now => (nomatch gate.symm.trans now)⟩
  · rw [segments] at stored
    rw [committed, journal]
    rcases storedCases stored with before | rfl
    · exact kept.stored seq before
    · exact Or.inr (journaled.opened bytes)
  · rw [segments] at stored
    rw [committed, store, gate]
    rcases storedCases stored with before | rfl
    · exact kept.known seq before
    · exact Or.inr (Or.inr (Or.inl ⟨bytes, rfl⟩))
  · rw [store, journal]
    exact journaled.undurable
  · rw [store, journal]
    exact journaled.opened
  · rw [gate] at now
    cases now

theorem putIdle {gate : Gate} (put : gate.isPut = true) : gate.isSweeping = false := by
  cases gate with
  | putting r => rfl
  | _ => cases put

theorem journaledSegmentPut {w : World} {put} (journaled : Journaled w) (gate : w.gate.isPut = true) :
    Journaled (segmentPut layout w put) := by
  have bytes := journaled.filling.shape.putting gate
  have idle := putIdle gate
  have filling := @fillingPut layout w put journaled.filling
  unfold segmentPut at filling ⊢
  dsimp only at filling ⊢
  split
  · rename_i r putting
    rw [putting] at filling
    dsimp only at filling
    split
    · rename_i ok
      rw [if_pos ok] at filling
      exact journaledFlushed journaled filling idle bytes rfl rfl rfl rfl rfl
    · rename_i failed
      rw [if_neg failed] at filling
      exact journaledFailed journaled filling idle bytes rfl rfl rfl rfl rfl
  · rename_i freed clean putting flushing
    split
    · exact journaledSnapshot
        (journaledFlushed journaled (fillingFlushed journaled.filling rfl rfl) idle bytes rfl rfl rfl rfl rfl)
    · rename_i failed
      rw [putting, flushing] at filling
      dsimp only at filling
      rw [if_neg failed] at filling
      exact journaledFailed journaled filling idle bytes rfl rfl rfl rfl rfl
  · exact journaled

theorem journaledCommit {w : World} {settled} (journaled : Journaled w) (records : Records w (.commit settled)) :
    Journaled (commit w settled) := by
  unfold commit
  split
  · rename_i table generation writing
    simp only [Records, pendingTable, writing] at records
    have later : ∀ seq, w.segments seq ≠ none → Mentions w.committed seq →
        Mentions table seq ∨ seq ∈ w.store.undurableSegments := by
      rintro seq stored ⟨e, mem, spilled, rfl⟩
      exact records e mem spilled stored
    have committed : ∀ (residency : Residency) (stage : Stage), Journaled { w with
        committed := table
        residency := residency
        stage := stage } := by
      intro residency stage
      refine ⟨fillingFrame journaled.filling ⟨rfl, rfl, rfl, rfl⟩ (Or.inl rfl), fun seq stored => ?_, fun seq stored => ?_,
        journaled.undurable, journaled.opened, journaled.record, journaled.shrunk, journaled.swept, journaled.emptied⟩
      · rcases journaled.stored seq stored with before | listed
        · exact (later seq stored before).imp_right (journaled.undurable seq)
        · exact Or.inr listed
      · rcases journaled.known seq stored with before | known
        · exact (later seq stored before).imp_right Or.inl
        · exact Or.inr known
    split
    · exact committed _ _
    · exact committed w.residency _
  · exact journaled

theorem journaledSweep {w : World} (journaled : Journaled w) (free : w.gate = .free) (records : Records w .sweep) :
    Journaled { w with
      store := startSweep w.store
      gate := .sweeping w.store.deadSegments } := by
  refine ⟨fillingFrame journaled.filling ⟨rfl, rfl, rfl, rfl⟩ (Or.inr ⟨rfl, fun put => by cases put⟩), journaled.stored,
    fun seq stored => ?_, fun _ mem => (nomatch mem), journaled.opened, fun _ _ gate => (nomatch gate),
    fun _ gate => (nomatch gate), fun _ => rfl, fun gate => (nomatch gate)⟩
  rcases knownOutside journaled (by rw [free]; rfl) stored with mentioned | undurable | opened
  · exact Or.inl mentioned
  · refine (records seq undurable stored).imp_right fun dead => ?_
    exact Or.inr (Or.inr ⟨_, rfl, dead⟩)
  · exact Or.inr (Or.inr (Or.inl opened))

theorem journaledRemove {w : World} (journaled : Journaled w) : Journaled (removeSegment w true) := by
  unfold removeSegment
  split
  · rename_i gone rest gate
    have kept : ∀ seq, Function.update w.segments gone none seq ≠ none → seq ≠ gone ∧ w.segments seq ≠ none := by
      intro seq stored
      by_cases same : seq = gone
      · rw [same, Function.update_self] at stored
        exact absurd rfl stored
      · rw [Function.update_of_ne same] at stored
        exact ⟨same, stored⟩
    refine ⟨fillingFrame journaled.filling ⟨rfl, rfl, rfl, rfl⟩ (Or.inr ⟨rfl, fun put => by cases put⟩),
      fun seq stored => journaled.stored seq (kept seq stored).2, fun seq stored => ?_, journaled.undurable,
      journaled.opened, fun _ _ now => (nomatch now), fun _ now => (nomatch now),
      fun _ => journaled.swept (by rw [gate]; rfl), fun now => (nomatch now)⟩
    obtain ⟨other, before⟩ := kept seq stored
    refine (journaled.known seq before).imp_right fun either => either.imp_right fun more => more.imp_right ?_
    rintro ⟨left, sweeping, mem⟩
    rw [gate] at sweeping
    cases sweeping
    exact ⟨rest, rfl, (List.mem_cons.mp mem).resolve_left other⟩
  · exact journaled

theorem journaledFinish {w : World} (journaled : Journaled w) (gate : w.gate = .sweeping []) :
    Journaled (finishRemoving w) := by
  have none_ : w.store.undurableSegments = [] := journaled.swept (by rw [gate]; rfl)
  have known : ∀ seq, w.segments seq ≠ none → Mentions w.committed seq ∨ seq ∈ w.store.undurableSegments ∨
      w.store.openBuffer ≠ [] ∧ seq = w.store.openSeq := by
    intro seq stored
    refine (journaled.known seq stored).imp_right fun either => either.imp_right fun more => ?_
    refine more.resolve_right ?_
    rintro ⟨rest, sweeping, mem⟩
    rw [gate] at sweeping
    cases sweeping
    cases mem
  unfold finishRemoving
  dsimp only
  split
  · rename_i empty
    exact ⟨fillingFrame journaled.filling ⟨rfl, rfl, rfl, rfl⟩ (Or.inr ⟨rfl, fun put => by cases put⟩), journaled.stored,
      fun seq stored => (known seq stored).imp_right fun either => either.imp_right Or.inl, journaled.undurable,
      journaled.opened, fun _ _ now => (nomatch now), fun _ now => (nomatch now), fun _ => none_, fun _ => empty⟩
  · refine ⟨fillingFrame journaled.filling ⟨rfl, rfl, rfl, rfl⟩ (Or.inr ⟨rfl, fun put => by cases put⟩), journaled.stored,
      fun seq stored => (known seq stored).imp_right fun either => either.imp_right Or.inl, journaled.undurable,
      journaled.opened, fun _ _ now => (nomatch now), ?_, fun _ => none_, fun now => (nomatch now)⟩
    rintro _ ⟨rfl⟩
    rfl

theorem journaledUnjournal {w : World} {removed : Bool} (journaled : Journaled w) (gate : w.gate = .unjournaling) :
    Journaled { w with journal := if removed then none else w.journal, gate := .free, stage := .idle } := by
  have none_ : w.store.undurableSegments = [] := journaled.swept (by rw [gate]; rfl)
  have empty := journaled.emptied gate
  have committed : ∀ seq, w.segments seq ≠ none → Mentions w.committed seq := by
    intro seq stored
    rcases knownOutside journaled (by rw [gate]; rfl) stored with mentioned | undurable | ⟨bytes, _⟩
    · exact mentioned
    · rw [none_] at undurable
      cases undurable
    · exact absurd empty bytes
  refine ⟨fillingFrame journaled.filling ⟨rfl, rfl, rfl, rfl⟩ (Or.inr ⟨rfl, fun put => by cases put⟩),
    fun seq stored => Or.inl (committed seq stored), fun seq stored => Or.inl (committed seq stored), fun seq mem => ?_,
    fun bytes => absurd empty bytes, fun _ _ now => (by cases now), fun _ now => (by cases now), fun now => (by cases now),
    fun now => (by cases now)⟩
  rw [show seq ∈ w.store.undurableSegments ↔ seq ∈ [] from none_ ▸ Iff.rfl] at mem
  cases mem

theorem restoredUndurable (record : List Nat) (s : Store) :
    (restoreJournaled s record).undurableSegments = s.undurableSegments := by
  induction record generalizing s with
  | nil => rfl
  | cons seq rest ih => exact ih (restoreNextSegmentSeq s (u32 (seq + 1)))

theorem replayedUndurable (entries : List (Nat × Entry)) (s : Store) :
    (entries.foldl (fun s e => addLive s e.2.remoteId) s).undurableSegments = s.undurableSegments := by
  induction entries generalizing s with
  | nil => rfl
  | cons e rest ih => exact ih (addLive s e.2.remoteId)

theorem journaledCrash {w : World} {removed journalRemoved} (journaled : Journaled w)
    (records : Records w (.crash removed journalRemoved)) : Journaled (reopened w removed journalRemoved) := by
  have none_ : (reopened w removed journalRemoved).store.undurableSegments = [] :=
    (restoredUndurable _ _).trans (replayedUndurable _ _)
  have empty : (reopened w removed journalRemoved).store.openBuffer = [] := by
    obtain ⟨replayed, _⟩ := foldReplayed
      ((deserialize w.committed).map.entries.filter fun e => e.2.state.spilled) fresh
    obtain ⟨restored, _⟩ := journaledReplayed (w.journal.getD []) (replay (deserialize w.committed))
    exact (replayedTrans replayed restored).buffer
  have committed : ∀ seq, (reopened w removed journalRemoved).segments seq ≠ none → Mentions w.committed seq := by
    intro seq stored
    by_contra unmentioned
    by_cases gone : seq ∈ removed
    · simp [reopened, gone] at stored
    · have before : w.segments seq ≠ none := by simpa [reopened, gone] using stored
      have listed := (journaled.stored seq before).resolve_left unmentioned
      exact gone (records seq (orphanIff.mpr ⟨listed, unmentioned⟩) before)
  refine ⟨fillingReopened, fun seq stored => Or.inl (committed seq stored), fun seq stored => Or.inl (committed seq stored),
    fun seq mem => ?_, fun bytes => absurd empty bytes, fun _ _ now => (by cases now), fun _ now => (by cases now),
    fun now => (by cases now), fun now => (by cases now)⟩
  rw [none_] at mem
  cases mem

theorem journaledPerform {w : World} {a} (journaled : Journaled w) (allowed : Allowed w a) (records : Records w a) :
    Journaled (perform layout segmentTarget w a) := by
  have frame : ∀ {after : World}, Filling after → after.segments = w.segments → after.journal = w.journal →
      after.committed = w.committed → after.store.undurableSegments = w.store.undurableSegments →
      after.store.openBuffer = w.store.openBuffer → after.store.openSeq = w.store.openSeq → after.gate = w.gate →
      Journaled after := fun filling segments journal committed undurable buffer openSeq gate =>
    journaledFrame journaled filling segments journal committed undurable buffer openSeq (Or.inl gate)
  have derefed : ∀ remoteId, (deref w.store remoteId).undurableSegments = w.store.undurableSegments ∧
      (deref w.store remoteId).openBuffer = w.store.openBuffer ∧ (deref w.store remoteId).openSeq = w.store.openSeq := by
    intro remoteId
    obtain ⟨buffer, seq, _⟩ := derefFrame w.store remoteId
    refine ⟨?_, buffer, seq⟩
    unfold deref
    dsimp only
    repeat' split
    all_goals rfl
  have filling := @fillingPerform layout segmentTarget w a journaled.filling allowed
  cases a with
  | spillBlob job => exact journaledSpill journaled allowed.1 allowed.2 records
  | journalPut put => exact journaledPut journaled
  | segmentPut put => exact journaledSegmentPut journaled allowed
  | markReserved index =>
    have filling := filling fun _ same => (nomatch same)
    unfold perform markReserved at filling ⊢
    dsimp only at filling ⊢
    split
    · exact journaled
    · rename_i r here
      rw [here] at filling
      dsimp only at filling
      split
      · exact frame (fillingFrame journaled.filling ⟨rfl, rfl, rfl, rfl⟩ (Or.inl rfl)) rfl rfl rfl rfl rfl rfl rfl
      · split
        · obtain ⟨undurable, buffer, seq⟩ := derefed r.remoteId
          exact frame (fillingFrame journaled.filling (derefSegment rfl) (Or.inl rfl)) rfl rfl rfl undurable buffer seq rfl
        · exact frame (fillingFrame journaled.filling ⟨rfl, rfl, rfl, rfl⟩ (Or.inl rfl)) rfl rfl rfl rfl rfl rfl rfl
  | noteBlobUploaded offset size remoteId =>
    unfold perform noteBlobUploaded
    dsimp only
    split
    · exact frame (fillingFrame journaled.filling ⟨rfl, rfl, rfl, rfl⟩ (Or.inl rfl)) rfl rfl rfl rfl rfl rfl rfl
    · obtain ⟨undurable, buffer, seq⟩ := derefed (markUploaded layout w.residency offset size remoteId).2
      exact frame (fillingFrame journaled.filling (derefSegment rfl) (Or.inl rfl)) rfl rfl rfl undurable buffer seq rfl
  | writeIndex freed clean => exact frame (filling fun _ same => (nomatch same)) rfl rfl rfl rfl rfl rfl rfl
  | flush =>
    unfold perform flush
    dsimp only
    split
    · split
      · exact journaledSnapshot journaled
      · rename_i bytes
        exact journaledFrame journaled
          (fillingFrame journaled.filling ⟨rfl, rfl, rfl, rfl⟩ (Or.inr ⟨rfl, fun _ => bytes⟩)) rfl rfl rfl rfl rfl rfl
          (Or.inr ⟨by rw [allowed.1]; rfl, Or.inr rfl⟩)
    · exact journaled
  | abort => exact frame (filling fun _ same => (nomatch same)) rfl rfl rfl rfl rfl rfl rfl
  | commit settled => exact journaledCommit journaled records
  | sweep => exact journaledSweep journaled allowed.1 records
  | removeSegment removed =>
    cases show removed = true from records
    exact journaledRemove journaled
  | finishRemoving => exact journaledFinish journaled allowed
  | removeJournal removed => exact journaledUnjournal journaled allowed
  | crash removed journalRemoved => exact journaledCrash journaled records

variable (layout segmentTarget)

theorem journaledHolds : Inductive ((system layout segmentTarget).under Records) Journaled := by
  constructor
  · intro w first
    cases first
    exact startJournaled
  · intro w a after journaled step
    obtain ⟨records, allowed, rfl⟩ := step
    exact journaledPerform journaled allowed records

theorem segmentsRecorded {w} (reach : Reachable ((system layout segmentTarget).under Records) w) : Recorded w :=
  journaledRecorded (reachableInvariant (journaledHolds layout segmentTarget) reach)

-- A segment is put and dies before a checkpoint names it; after a crash its number is journaled.
def interruptedActions : List Action :=
  [.spillBlob ⟨100, [1, 2, 3, 4], false⟩, .journalPut .ok, .segmentPut .ok, .markReserved 0,
    .writeIndex [] false, .flush, .commit true, .sweep, .finishRemoving, .removeJournal true,
    .spillBlob ⟨200, [5, 6, 7, 8], false⟩, .journalPut .ok, .segmentPut .ok, .crash [2] true]

theorem interruptedRecorded : Recorded (interruptedActions.foldl (perform (appendLayout Nat Entry) 4) start) :=
  segmentsRecorded _ _ (reachableAllowed (by decide))

/-! A segment is put between the snapshot and the sweep: the sweep takes it from the journal although the
table just committed does not name it. -/

def midCheckpointActions : List Action :=
  [.writeIndex [] false, .flush, .spillBlob ⟨100, [1, 2, 3, 4], false⟩, .journalPut .ok, .segmentPut .ok,
    .markReserved 0, .commit true, .sweep, .finishRemoving, .removeJournal true]

theorem flushedSegmentUnrecorded : ¬∀ layout segmentTarget w, Reachable (system layout segmentTarget) w → Recorded w := by
  intro all
  have run : AllAllowed (fun w a => True ∧ Allowed w a) (perform (appendLayout Nat Entry) 4) start
      midCheckpointActions := by decide
  have recorded := all _ _ _ (reachableUnder (reachableAllowed run))
  exact absurd (recorded.found 1 (by decide)) (by decide)

end Dewfall.SpillJournal
