import Dewfall.Core.BlobReader
import Dewfall.General.Transition

/-! What a read returns, over whole runs of reads, writes and frees. The caches are keyed by the
offset alone: a write of data empties them first, and what reads put in them afterwards decides. A read
that reports an error or is cancelled returns nothing. -/
namespace Dewfall.BlobReaderRuns
open General.ByteFile General.Transition BlobReader

variable (codec : Codec)

def system : System World Action := System.ofFunction start Allowed (perform codec)

-- A blob that was not stored there when the read was issued is being written or stored at its offset by now.
def Overtaken (w : World) (offset : Nat) (wanted : Option Nat) : Prop :=
  ∃ i < w.nextBlob, ∃ blob ∈ w.blobs i, blob.offset = offset ∧ blob.phase ≠ .allocated ∧ wanted ≠ some i

instance (w offset wanted) : Decidable (Overtaken w offset wanted) := by unfold Overtaken; infer_instance

-- The allocator hands out free ranges; a tree or a registry is written at no offset that has been read since data
-- was last written there; no read ends that another blob has overtaken.
def StepSound (w : World) : Action → Prop
  | .allocate _ offset bytes => ∀ i < w.nextBlob, ∀ blob ∈ w.blobs i,
      Apart offset bytes.length blob.offset blob.bytes.length
  | .beginWrite id => ∀ blob ∈ w.blobs id, blob.kind ≠ .data → blob.offset ∉ w.filled
  | .completeRead id _ => ∀ r ∈ w.reads id, ¬Overtaken w r.location.offset r.wanted
  | .finishDecompression id => ∀ d ∈ w.decompressions id, d.keep = true → ¬Overtaken w d.offset d.wanted
  | _ => True

instance (w a) : Decidable (StepSound w a) := by
  apply BlobReader.Action.casesOn (motive := fun a => Decidable (StepSound w a)) a
  all_goals
    intros
    dsimp only [StepSound]
    infer_instance

def AnswersSound (w : World) : Prop :=
  ∀ a ∈ w.answers, ∀ bytes, a.stored = some bytes → a.result = deliver codec a.raw bytes

/-! ## The invariant -/

-- Of a blob whose write has begun the caches hold nothing but its own bytes, and nothing before it is stored.
structure Seen (w : World) (blob : Blob) : Prop where
  cached : blob.phase ≠ .allocated → ∀ data, w.readCache blob.offset = some data →
    blob.phase = .stored ∧ data = blob.bytes
  plain : blob.phase ≠ .allocated → ∀ plain, w.decompressedCache blob.offset = some plain →
    blob.phase = .stored ∧ deliver codec false blob.bytes = some plain

-- The blob a read asked for, as long as it is there.
def Wants (w : World) (wanted : Option Nat) (offset : Nat) : Prop :=
  ∀ id, wanted = some id → id < w.nextBlob ∧
    ∀ blob, w.blobs id = some blob → blob.phase = .stored ∧ blob.offset = offset

structure Files (w : World) : Prop where
  small : ∀ id blob, w.blobs id = some blob → id < w.nextBlob
  nonempty : ∀ id blob, w.blobs id = some blob → blob.bytes ≠ []
  apart : ∀ a b x y, a ≠ b → w.blobs a = some x → w.blobs b = some y →
    Apart x.offset x.bytes.length y.offset y.bytes.length
  written : ∀ id blob n, w.blobs id = some blob → blob.phase = .writing n →
    n ≤ blob.bytes.length ∧ Holds w.file blob.offset (blob.bytes.take n)
  held : ∀ id blob, w.blobs id = some blob → blob.phase = .stored →
    Holds w.file blob.offset blob.bytes

-- What a read has got so far is the front of the blob it asked for.
structure Reading (w : World) (r : ReadRequest) : Prop where
  wants : Wants w r.wanted r.location.offset
  got : ∀ id blob, r.wanted = some id → w.blobs id = some blob →
    r.location.size = blob.bytes.length ∧ r.got = blob.bytes.take r.got.length

structure Decompressing (w : World) (d : Decompression) : Prop where
  wants : Wants w d.wanted d.offset
  magic : codec.hasCompressionMagic d.data = true
  data : ∀ id blob, d.wanted = some id → w.blobs id = some blob → d.data = blob.bytes

structure Invariant (w : World) : Prop where
  files : Files w
  seen : ∀ id blob, w.blobs id = some blob → Seen codec w blob
  unfilled : ∀ offset, offset ∉ w.filled → w.readCache offset = none ∧ w.decompressedCache offset = none
  reads : ∀ i r, w.reads i = some r → Reading w r
  decompressions : ∀ i d, w.decompressions i = some d → Decompressing codec w d
  answers : AnswersSound codec w

theorem startInvariant : Invariant codec start := by
  refine ⟨⟨?_, ?_, ?_, ?_, ?_⟩, ?_, fun _ _ => ⟨rfl, rfl⟩, ?_, ?_, ?_⟩
  · intro id blob here
    cases here
  · intro id blob here
    cases here
  · intro a b x y _ here
    cases here
  · intro id blob n here
    cases here
  · intro id blob here
    cases here
  · intro id blob here
    cases here
  · intro i r here
    cases here
  · intro i d here
    cases here
  · intro a mem
    cases mem

variable {codec}

theorem sameOffset {w : World} (files : Files w) {a b x y} (first : w.blobs a = some x)
    (second : w.blobs b = some y) (same : x.offset = y.offset) : a = b := by
  by_contra other
  have positive : ∀ {id blob}, w.blobs id = some blob → 0 < blob.bytes.length :=
    fun here => List.length_pos_iff.mpr (files.nonempty _ _ here)
  exact apartOther (files.apart a b x y other first second) (positive first) (positive second) same

/-! ## Writes -/

-- A step that leaves the reads alone, and keeps what every stored blob is.
theorem writeInvariant {w after : World} (inv : Invariant codec w) (files : Files after)
    (next : w.nextBlob ≤ after.nextBlob) (seen : ∀ id blob, after.blobs id = some blob → Seen codec after blob)
    (kept : ∀ id, id < w.nextBlob → ∀ blob, after.blobs id = some blob →
      (∃ old, w.blobs id = some old ∧ blob.offset = old.offset ∧ blob.bytes = old.bytes ∧
        (old.phase = .stored → blob.phase = .stored)))
    (unfilled : ∀ offset, offset ∉ after.filled →
      after.readCache offset = none ∧ after.decompressedCache offset = none)
    (reads : after.reads = w.reads) (decompressions : after.decompressions = w.decompressions)
    (answers : after.answers = w.answers) : Invariant codec after := by
  have wants : ∀ wanted offset, Wants w wanted offset → Wants after wanted offset := by
    intro wanted offset wants id want
    obtain ⟨small, there⟩ := wants id want
    refine ⟨Nat.lt_of_lt_of_le small next, fun blob here => ?_⟩
    obtain ⟨old, before, same, _, stays⟩ := kept id small blob here
    obtain ⟨stored, offset⟩ := there old before
    exact ⟨stays stored, same.trans offset⟩
  refine ⟨files, seen, unfilled, fun i r here => ?_, fun i d here => ?_, ?_⟩
  · rw [reads] at here
    obtain ⟨wanted, got⟩ := inv.reads i r here
    refine ⟨wants _ _ wanted, fun id blob want there => ?_⟩
    obtain ⟨old, before, _, bytes, _⟩ := kept id (wanted id want).1 blob there
    rw [bytes]
    exact got id old want before
  · rw [decompressions] at here
    obtain ⟨wanted, magic, data⟩ := inv.decompressions i d here
    refine ⟨wants _ _ wanted, magic, fun id blob want there => ?_⟩
    obtain ⟨old, before, _, bytes, _⟩ := kept id (wanted id want).1 blob there
    exact (data id old want before).trans bytes.symm
  · unfold AnswersSound
    rw [answers]
    exact inv.answers

theorem seenFrame {w after : World} {blob} (seen : Seen codec w blob)
    (readCache : after.readCache blob.offset = w.readCache blob.offset ∨
      after.readCache blob.offset = none)
    (decompressedCache : after.decompressedCache blob.offset = w.decompressedCache blob.offset ∨
      after.decompressedCache blob.offset = none) : Seen codec after blob := by
  refine ⟨fun begun data here => ?_, fun begun plain here => ?_⟩
  · rcases readCache with same | gone
    · exact seen.cached begun data (same ▸ here)
    · rw [gone] at here
      cases here
  · rcases decompressedCache with same | gone
    · exact seen.plain begun plain (same ▸ here)
    · rw [gone] at here
      cases here

theorem allocateInvariant {w kind offset bytes} (inv : Invariant codec w) (nonempty : bytes ≠ [])
    (free : ∀ i < w.nextBlob, ∀ blob ∈ w.blobs i,
      Apart offset bytes.length blob.offset blob.bytes.length) :
    Invariant codec (allocate w kind offset bytes) := by
  have cases' : ∀ id blob, (allocate w kind offset bytes).blobs id = some blob →
      id = w.nextBlob ∧ blob = ⟨offset, bytes, kind, .allocated⟩ ∨ id ≠ w.nextBlob ∧
        w.blobs id = some blob := by
    intro id blob here
    simp only [allocate, Function.update_apply] at here
    split at here
    · exact Or.inl ⟨by assumption, (Option.some.inj here).symm⟩
    · exact Or.inr ⟨by assumption, here⟩
  refine writeInvariant inv ⟨?_, ?_, ?_, ?_, ?_⟩ (Nat.le_succ _) ?_ ?_ inv.unfilled rfl rfl rfl
  · intro id blob here
    rcases cases' id blob here with ⟨rfl, _⟩ | ⟨_, before⟩
    · exact Nat.lt_succ_self _
    · exact Nat.lt_succ_of_lt (inv.files.small id blob before)
  · intro id blob here
    rcases cases' id blob here with ⟨_, rfl⟩ | ⟨_, before⟩
    · exact nonempty
    · exact inv.files.nonempty id blob before
  · intro a b x y other first second
    rcases cases' a x first with ⟨rfl, rfl⟩ | ⟨_, first⟩
    · rcases cases' b y second with ⟨rfl, _⟩ | ⟨_, second⟩
      · exact absurd rfl other
      · exact free b (inv.files.small b y second) y second
    · rcases cases' b y second with ⟨rfl, rfl⟩ | ⟨_, second⟩
      · exact apartSymm (free a (inv.files.small a x first) x first)
      · exact inv.files.apart a b x y other first second
  · intro id blob n here writing
    rcases cases' id blob here with ⟨_, rfl⟩ | ⟨_, before⟩
    · cases writing
    · exact inv.files.written id blob n before writing
  · intro id blob here stored
    rcases cases' id blob here with ⟨_, rfl⟩ | ⟨_, before⟩
    · cases stored
    · exact inv.files.held id blob before stored
  · intro id blob here
    rcases cases' id blob here with ⟨_, rfl⟩ | ⟨_, before⟩
    · exact ⟨fun begun => absurd rfl begun, fun begun => absurd rfl begun⟩
    · exact seenFrame (inv.seen id blob before) (Or.inl rfl) (Or.inl rfl)
  · intro id small blob here
    rcases cases' id blob here with ⟨rfl, _⟩ | ⟨_, before⟩
    · exact absurd small (Nat.lt_irrefl _)
    · exact ⟨blob, before, rfl, rfl, fun h => h⟩

theorem setPhaseEq {w : World} {id blob} (here : w.blobs id = some blob) (phase : Phase) :
    setPhase w id phase =
      { w with blobs := Function.update w.blobs id (some { blob with phase := phase }) } := by
  simp only [setPhase, here]

-- The blob `id` moves to another phase, and its own range may be written.
theorem phaseInvariant {w after : World} {id blob} {phase : Phase} (inv : Invariant codec w)
    (here : w.blobs id = some blob) (unstored : blob.phase ≠ .stored)
    (blobs : after.blobs = Function.update w.blobs id (some { blob with phase := phase }))
    (next : after.nextBlob = w.nextBlob)
    (others : ∀ b other data, b ≠ id → w.blobs b = some other → data.length ≤ other.bytes.length →
      Holds w.file other.offset data → Holds after.file other.offset data)
    (written : ∀ n, phase = .writing n → n ≤ blob.bytes.length ∧
      Holds after.file blob.offset (blob.bytes.take n))
    (held : phase = .stored → Holds after.file blob.offset blob.bytes)
    (seen : Seen codec after { blob with phase := phase })
    (readCache : ∀ offset, offset ≠ blob.offset → after.readCache offset = w.readCache offset)
    (decompressedCache : ∀ offset, offset ≠ blob.offset →
      after.decompressedCache offset = w.decompressedCache offset)
    (unfilled : ∀ offset, offset ∉ after.filled →
      after.readCache offset = none ∧ after.decompressedCache offset = none)
    (reads : after.reads = w.reads) (decompressions : after.decompressions = w.decompressions)
    (answers : after.answers = w.answers) : Invariant codec after := by
  have cases' : ∀ k other, after.blobs k = some other →
      k = id ∧ other = { blob with phase := phase } ∨ k ≠ id ∧ w.blobs k = some other := by
    intro k other found
    rw [blobs, Function.update_apply] at found
    split at found
    · exact Or.inl ⟨by assumption, (Option.some.inj found).symm⟩
    · exact Or.inr ⟨by assumption, found⟩
  refine writeInvariant inv ⟨?_, ?_, ?_, ?_, ?_⟩ (Nat.le_of_eq next.symm) ?_ ?_ unfilled reads decompressions answers
  · intro k other found
    rw [next]
    rcases cases' k other found with ⟨rfl, _⟩ | ⟨_, before⟩
    · exact inv.files.small k blob here
    · exact inv.files.small k other before
  · intro k other found
    rcases cases' k other found with ⟨_, rfl⟩ | ⟨_, before⟩
    · exact inv.files.nonempty id blob here
    · exact inv.files.nonempty k other before
  · intro a b x y other first second
    rcases cases' a x first with ⟨rfl, rfl⟩ | ⟨_, first⟩
    · rcases cases' b y second with ⟨rfl, _⟩ | ⟨_, second⟩
      · exact absurd rfl other
      · exact inv.files.apart a b blob y other here second
    · rcases cases' b y second with ⟨rfl, rfl⟩ | ⟨_, second⟩
      · exact inv.files.apart a b x blob other first here
      · exact inv.files.apart a b x y other first second
  · intro k other n found writing
    rcases cases' k other found with ⟨_, rfl⟩ | ⟨apart, before⟩
    · exact written n writing
    · obtain ⟨le, holds⟩ := inv.files.written k other n before writing
      exact ⟨le, others k other _ apart before (by rw [List.length_take]; omega) holds⟩
  · intro k other found stored
    rcases cases' k other found with ⟨_, rfl⟩ | ⟨apart, before⟩
    · exact held stored
    · exact others k other _ apart before (Nat.le_refl _) (inv.files.held k other before stored)
  · intro k other found
    rcases cases' k other found with ⟨rfl, rfl⟩ | ⟨apart, before⟩
    · exact seen
    · have elsewhere : other.offset ≠ blob.offset := fun same =>
        apart (sameOffset inv.files before here same)
      exact seenFrame (inv.seen k other before) (Or.inl (readCache _ elsewhere))
        (Or.inl (decompressedCache _ elsewhere))
  · intro k _ other found
    rcases cases' k other found with ⟨rfl, rfl⟩ | ⟨_, before⟩
    · exact ⟨blob, here, rfl, rfl, fun stored => absurd stored unstored⟩
    · exact ⟨other, before, rfl, rfl, fun h => h⟩

theorem emptySeen {w : World} {blob : Blob}
    (empty : w.readCache blob.offset = none ∧ w.decompressedCache blob.offset = none) : Seen codec w blob := by
  refine ⟨fun _ data here => ?_, fun _ plain here => ?_⟩
  · rw [empty.1] at here
    cases here
  · rw [empty.2] at here
    cases here

theorem invalidated {w : World} {offset} (inv : Invariant codec w) (other) (out : other ∉ (invalidate w offset).filled) :
    (invalidate w offset).readCache other = none ∧ (invalidate w offset).decompressedCache other = none := by
  simp only [invalidate, List.mem_filter, decide_eq_true_eq, not_and, not_not] at out
  simp only [invalidate, Function.update_apply]
  split
  · exact ⟨rfl, rfl⟩
  · rename_i elsewhere
    exact inv.unfilled other fun there => elsewhere (out there)

theorem beginWriteInvariant {w id} (inv : Invariant codec w)
    (allocated : ∃ blob ∈ w.blobs id, blob.phase = .allocated)
    (fresh : ∀ blob ∈ w.blobs id, blob.kind ≠ .data → blob.offset ∉ w.filled) :
    Invariant codec (beginWrite w id) := by
  obtain ⟨blob, here, allocated⟩ := allocated
  have found : w.blobs id = some blob := here
  have unstored : blob.phase ≠ .stored := by simp [allocated]
  have written : ∀ n, Phase.writing 0 = .writing n → n ≤ blob.bytes.length ∧
      Holds w.file blob.offset (blob.bytes.take n) := by
    rintro n ⟨rfl⟩
    exact ⟨Nat.zero_le _, holdsNil _ _⟩
  unfold beginWrite
  simp only [found]
  split
  · rw [setPhaseEq (w := invalidate w blob.offset) found]
    refine phaseInvariant inv found unstored rfl rfl (fun _ _ _ _ _ _ holds => holds) written
      (fun stored => by cases stored) (emptySeen ?_)
      (fun offset other => Function.update_of_ne other _ _)
      (fun offset other => Function.update_of_ne other _ _) (invalidated inv) rfl rfl rfl
    exact ⟨Function.update_self .., Function.update_self ..⟩
  · rename_i other
    rw [setPhaseEq found]
    exact phaseInvariant inv found unstored rfl rfl (fun _ _ _ _ _ _ holds => holds) written
      (fun stored => by cases stored) (emptySeen (inv.unfilled _ (fresh blob here other))) (fun _ _ => rfl)
      (fun _ _ => rfl) inv.unfilled rfl rfl rfl

-- While a blob is written no cache holds anything of its offset.
theorem writingEmpty {w id blob n} (inv : Invariant codec w) (here : w.blobs id = some blob)
    (writing : blob.phase = .writing n) :
    w.readCache blob.offset = none ∧ w.decompressedCache blob.offset = none := by
  have seen := inv.seen id blob here
  have begun : blob.phase ≠ .allocated := by simp [writing]
  refine ⟨Option.eq_none_iff_forall_ne_some.mpr fun data hit => ?_,
    Option.eq_none_iff_forall_ne_some.mpr fun plain hit => ?_⟩
  · exact absurd (seen.cached begun data hit).1 (by simp [writing])
  · exact absurd (seen.plain begun plain hit).1 (by simp [writing])

theorem writeMoreInvariant {w id count} (inv : Invariant codec w)
    (room : ∃ blob ∈ w.blobs id, ∃ left ∈ blob.remaining, count ≤ left) :
    Invariant codec (writeMore w id count) := by
  obtain ⟨⟨offset, bytes, kind, phase⟩, here, left, remaining, fits⟩ := room
  have found : w.blobs id = some ⟨offset, bytes, kind, phase⟩ := here
  cases phase with
  | allocated => cases remaining
  | stored => cases remaining
  | writing written =>
    cases remaining
    have fits : count ≤ bytes.length - written := fits
    obtain ⟨le, holds⟩ := inv.files.written id _ written found rfl
    have le : written ≤ bytes.length := le
    have chunk : ((bytes.drop written).take count).length = count := by
      rw [List.length_take, List.length_drop]
      omega
    have before : (bytes.take written).length = written := by
      rw [List.length_take]
      exact Nat.min_eq_left le
    unfold writeMore
    simp only [found]
    rw [setPhaseEq (w := { w with
      file := overlay w.file (offset + written) ((bytes.drop written).take count) }) found]
    have empty := writingEmpty inv found rfl
    refine phaseInvariant inv found (by simp) rfl rfl ?_ ?_ (fun stored => by cases stored) (emptySeen empty)
      (fun _ _ => rfl) (fun _ _ => rfl) inv.unfilled rfl rfl rfl
    · intro b other data apart second short holds
      have ranges := inv.files.apart b id other _ apart second found
      refine holdsApart holds ?_
      unfold Apart at *
      rw [chunk]
      dsimp only at ranges
      omega
    · rintro n ⟨rfl⟩
      refine ⟨by dsimp only; omega, ?_⟩
      dsimp only
      rw [List.take_add, holdsAppend, before]
      refine ⟨holdsApart holds ?_, holdsOverlay _ _ _⟩
      rw [before]
      exact Or.inl (Nat.le_refl _)

theorem finishWriteInvariant {w id} (inv : Invariant codec w)
    (finished : ∃ blob ∈ w.blobs id, blob.remaining = some 0) : Invariant codec (setPhase w id .stored) := by
  obtain ⟨blob, here, remaining⟩ := finished
  have found : w.blobs id = some blob := here
  obtain ⟨n, writing, all⟩ : ∃ n, blob.phase = .writing n ∧ blob.bytes.length - n = 0 := by
    unfold Blob.remaining at remaining
    split at remaining
    · rename_i n writing
      exact ⟨n, writing, Option.some.inj remaining⟩
    · contradiction
  obtain ⟨le, holds⟩ := inv.files.written id blob n found writing
  have empty := writingEmpty inv found writing
  rw [setPhaseEq found]
  refine phaseInvariant inv found (by simp [writing]) rfl rfl (fun _ _ _ _ _ _ holds => holds)
    (fun n writing => by cases writing) (fun _ => ?_) (emptySeen empty) (fun _ _ => rfl) (fun _ _ => rfl) inv.unfilled
    rfl rfl rfl
  rwa [List.take_of_length_le (by omega)] at holds

theorem freeInvariant {w id} (inv : Invariant codec w) : Invariant codec (free w id) := by
  have before : ∀ k blob, (free w id).blobs k = some blob → w.blobs k = some blob := by
    intro k blob here
    simp only [free, Function.update_apply] at here
    split at here
    · cases here
    · exact here
  refine writeInvariant inv ⟨?_, ?_, ?_, ?_, ?_⟩ (Nat.le_refl _) ?_ ?_ inv.unfilled rfl rfl rfl
  · exact fun k blob here => inv.files.small k blob (before k blob here)
  · exact fun k blob here => inv.files.nonempty k blob (before k blob here)
  · exact fun a b x y other first second =>
      inv.files.apart a b x y other (before a x first) (before b y second)
  · exact fun k blob n here => inv.files.written k blob n (before k blob here)
  · exact fun k blob here => inv.files.held k blob (before k blob here)
  · exact fun k blob here => seenFrame (inv.seen k blob (before k blob here)) (Or.inl rfl) (Or.inl rfl)
  · exact fun k _ blob here => ⟨blob, before k blob here, rfl, rfl, fun h => h⟩

/-! ## Reads -/

theorem filesKept {w after : World} (files : Files w) (file : after.file = w.file) (blobs : after.blobs = w.blobs)
    (next : after.nextBlob = w.nextBlob) : Files after := by
  constructor
  all_goals
    rw [blobs]
    first | rw [next] | rw [file] | skip
  · exact files.small
  · exact files.nonempty
  · exact files.apart
  · exact files.written
  · exact files.held

theorem wantsKept {w after : World} {wanted offset} (wants : Wants w wanted offset) (blobs : after.blobs = w.blobs)
    (next : after.nextBlob = w.nextBlob) : Wants after wanted offset := by
  unfold Wants
  rw [blobs, next]
  exact wants

-- A step of a read: the blobs and the file stay as they are.
theorem readerInvariant {w after : World} (inv : Invariant codec w) (file : after.file = w.file)
    (blobs : after.blobs = w.blobs) (next : after.nextBlob = w.nextBlob)
    (seen : ∀ id blob, w.blobs id = some blob → Seen codec after blob)
    (unfilled : ∀ offset, offset ∉ after.filled →
      after.readCache offset = none ∧ after.decompressedCache offset = none)
    (reads : ∀ i r, after.reads i = some r → Reading w r)
    (decompressions : ∀ i d, after.decompressions i = some d → Decompressing codec w d)
    (answers : after.answers = w.answers) : Invariant codec after := by
  refine ⟨filesKept inv.files file blobs next, ?_, unfilled, fun i r here => ?_, fun i d here => ?_, ?_⟩
  · rw [blobs]
    exact seen
  · obtain ⟨wants, got⟩ := reads i r here
    refine ⟨wantsKept wants blobs next, ?_⟩
    rw [blobs]
    exact got
  · obtain ⟨wants, magic, data⟩ := decompressions i d here
    refine ⟨wantsKept wants blobs next, magic, ?_⟩
    rw [blobs]
    exact data
  · unfold AnswersSound
    rw [answers]
    exact inv.answers

theorem answerInvariant {w : World} {wanted raw result} (inv : Invariant codec w)
    (right : ∀ id blob, wanted = some id → w.blobs id = some blob → blob.phase = .stored →
      result = deliver codec raw blob.bytes) : Invariant codec (answer w wanted raw result) := by
  have kept : Invariant codec { answer w wanted raw result with answers := w.answers } :=
    readerInvariant inv rfl rfl rfl (fun id blob here => seenFrame (inv.seen id blob here) (Or.inl rfl) (Or.inl rfl))
      inv.unfilled inv.reads inv.decompressions rfl
  obtain ⟨files, seen, unfilled, reads, decompressions, _⟩ := kept
  refine ⟨filesKept files rfl rfl rfl, fun id blob here => seenFrame (seen id blob here) (Or.inl rfl) (Or.inl rfl),
    unfilled, fun i r here => ⟨(reads i r here).wants, (reads i r here).got⟩,
    fun i d here => ⟨(decompressions i d here).wants, (decompressions i d here).magic, (decompressions i d here).data⟩,
    ?_⟩
  intro a mem bytes still
  rcases List.mem_append.mp mem with earlier | last
  · exact inv.answers a earlier bytes still
  · cases List.mem_singleton.mp last
    dsimp only at still ⊢
    cases wanted with
    | none => cases still
    | some id =>
      cases here : w.blobs id with
      | none => simp [stillStored, here] at still
      | some blob =>
        simp only [stillStored, Option.bind_some, here] at still
        split at still
        · rename_i stored
          rw [← Option.some.inj still]
          exact right id blob rfl here stored
        · cases still

theorem storedAtSome {w : World} {location id} (here : storedAt w location = some id) :
    id < w.nextBlob ∧ ∃ blob, w.blobs id = some blob ∧ blob.phase = .stored ∧
      blob.offset = location.offset ∧ blob.bytes.length = location.size := by
  refine ⟨List.mem_range.mp (List.mem_of_find?_eq_some here), ?_⟩
  have holds := List.find?_some here
  simp only [decide_eq_true_eq] at holds
  obtain ⟨blob, found, facts⟩ := holds
  exact ⟨blob, found, facts⟩

theorem storedAtWants (w : World) (location : Location) :
    Wants w (storedAt w location) location.offset := by
  intro id want
  obtain ⟨small, blob, found, stored, offset, _⟩ := storedAtSome want
  refine ⟨small, fun other here => ?_⟩
  cases Option.some.inj (here.symm.trans found)
  exact ⟨stored, offset⟩

theorem hitRight {w : World} {location data} (inv : Invariant codec w)
    (hit : w.readCache location.offset = some data) : ∀ id blob, storedAt w location = some id →
      w.blobs id = some blob → data = blob.bytes := by
  intro id blob want here
  obtain ⟨stored, offset⟩ := (storedAtWants w location id want).2 blob here
  exact ((inv.seen id blob here).cached (by simp [stored]) data (offset ▸ hit)).2

theorem readInvariant {w location raw decompressInline} (inv : Invariant codec w) :
    Invariant codec (read codec w location raw decompressInline) := by
  unfold BlobReader.read
  dsimp only
  split
  · rename_i plain hit
    split at hit
    · rename_i cooked
      simp only [Bool.and_eq_true, Bool.not_eq_true'] at cooked
      refine answerInvariant inv fun id blob want here stored => ?_
      obtain ⟨_, offset⟩ := (storedAtWants w location id want).2 blob here
      rw [cooked.2]
      exact ((inv.seen id blob here).plain (by simp [stored]) plain (offset ▸ hit)).2.symm
    · cases hit
  · split
    · rename_i data hit
      split
      · rename_i compressed
        simp only [Bool.and_eq_true, Bool.not_eq_true'] at compressed
        refine readerInvariant inv rfl rfl rfl
          (fun id blob here => seenFrame (inv.seen id blob here) (Or.inl rfl) (Or.inl rfl)) inv.unfilled inv.reads ?_ rfl
        intro i d pending
        simp only [Function.update_apply] at pending
        split at pending
        · cases Option.some.inj pending
          exact ⟨storedAtWants w location, compressed.2, hitRight inv hit⟩
        · exact inv.decompressions i d pending
      · rename_i whole
        refine answerInvariant inv fun id blob want here _ => ?_
        have same := hitRight inv hit id blob want here
        subst same
        unfold deliver
        cases raw with
        | true => rfl
        | false =>
          simp only [Bool.not_false, Bool.true_and, Bool.not_eq_true] at whole
          simp [whole]
    · refine readerInvariant inv rfl rfl rfl
        (fun id blob here => seenFrame (inv.seen id blob here) (Or.inl rfl) (Or.inl rfl)) inv.unfilled ?_
        inv.decompressions rfl
      intro i r pending
      simp only [Function.update_apply] at pending
      split at pending
      · cases Option.some.inj pending
        refine ⟨storedAtWants w location, fun id blob want here => ⟨?_, rfl⟩⟩
        obtain ⟨_, other, there, _, _, size⟩ := storedAtSome want
        cases Option.some.inj (there.symm.trans here)
        exact size.symm
      · exact inv.reads i r pending

theorem readMoreInvariant {w id count} (inv : Invariant codec w)
    (room : ∃ r ∈ w.reads id, r.got.length + count ≤ r.location.size) :
    Invariant codec (readMore w id count) := by
  obtain ⟨r, here, room⟩ := room
  have found : w.reads id = some r := here
  unfold readMore
  simp only [found]
  refine readerInvariant inv rfl rfl rfl
    (fun id blob here => seenFrame (inv.seen id blob here) (Or.inl rfl) (Or.inl rfl)) inv.unfilled ?_
    inv.decompressions rfl
  intro i other pending
  simp only [Function.update_apply] at pending
  split at pending
  · cases Option.some.inj pending
    obtain ⟨wants, got⟩ := inv.reads id r found
    refine ⟨wants, fun k blob want stored => ?_⟩
    obtain ⟨size, front⟩ := got k blob want stored
    obtain ⟨phase, same⟩ := (wants k want).2 blob stored
    refine ⟨size, ?_⟩
    have holds := inv.files.held k blob stored phase
    dsimp only
    rw [List.length_append, sliceLength, List.take_add, ← same, holdsSlice holds (by omega)]
    exact congrArg (· ++ _) front
  · exact inv.reads i other pending

-- What was asked of the blob now at an offset is what may be cached there.
theorem currentSeen {w : World} {offset wanted} (inv : Invariant codec w) (current : ¬Overtaken w offset wanted)
    (wants : Wants w wanted offset) {id blob} (here : w.blobs id = some blob) (same : blob.offset = offset)
    (begun : blob.phase ≠ .allocated) : wanted = some id ∧ blob.phase = .stored := by
  have asked : wanted = some id := by
    by_contra other
    exact current ⟨id, inv.files.small id blob here, blob, here, same, begun, other⟩
  exact ⟨asked, ((wants id asked).2 blob here).1⟩

theorem completeReadInvariant {w id cancelled} (inv : Invariant codec w)
    (whole : ∃ r ∈ w.reads id, r.got.length = r.location.size)
    (current : ∀ r ∈ w.reads id, ¬Overtaken w r.location.offset r.wanted) :
    Invariant codec (completeRead codec w id cancelled) := by
  obtain ⟨r, here, whole⟩ := whole
  have found : w.reads id = some r := here
  obtain ⟨wants, got⟩ := inv.reads id r found
  have right : ∀ k blob, r.wanted = some k → w.blobs k = some blob → r.got = blob.bytes := by
    intro k blob want stored
    obtain ⟨size, front⟩ := got k blob want stored
    rw [front, List.take_of_length_le (by omega)]
  have cached : Invariant codec { w with
      reads := Function.update w.reads id none
      readCache := Function.update w.readCache r.location.offset (some r.got)
      filled := r.location.offset :: w.filled } := by
    refine readerInvariant inv rfl rfl rfl (fun k blob stored => ?_) (fun offset out => ?_) (fun i other pending => ?_)
      inv.decompressions rfl
    · have seen := inv.seen k blob stored
      refine ⟨fun begun data hit => ?_, seen.plain⟩
      simp only [Function.update_apply] at hit
      split at hit
      · rename_i same
        obtain ⟨asked, phase⟩ := currentSeen inv (current r here) wants stored same begun
        rw [← Option.some.inj hit]
        exact ⟨phase, right k blob asked stored⟩
      · exact seen.cached begun data hit
    · obtain ⟨other, out⟩ := not_or.mp (List.mem_cons.not.mp out)
      exact ⟨(Function.update_of_ne other _ _).trans (inv.unfilled offset out).1, (inv.unfilled offset out).2⟩
    · simp only [Function.update_apply] at pending
      split at pending
      · cases pending
      · exact inv.reads i other pending
  unfold completeRead
  simp only [found]
  split
  · exact cached
  · refine answerInvariant cached fun k blob want stored _ => ?_
    rw [right k blob want stored]

theorem finishDecompressionInvariant {w id} (inv : Invariant codec w)
    (current : ∀ d ∈ w.decompressions id, d.keep = true → ¬Overtaken w d.offset d.wanted) :
    Invariant codec (finishDecompression codec w id) := by
  unfold finishDecompression
  split
  · exact inv
  rename_i d found
  obtain ⟨wants, magic, same⟩ := inv.decompressions id d found
  have others : ∀ i other, Function.update w.decompressions id none i = some other →
      Decompressing codec w other := by
    intro i other pending
    simp only [Function.update_apply] at pending
    split at pending
    · cases pending
    · exact inv.decompressions i other pending
  have dropped : Invariant codec { w with decompressions := Function.update w.decompressions id none } :=
    readerInvariant inv rfl rfl rfl (fun k blob here => seenFrame (inv.seen k blob here) (Or.inl rfl) (Or.inl rfl))
      inv.unfilled inv.reads others rfl
  have right : ∀ k blob, d.wanted = some k → w.blobs k = some blob →
      codec.decompressAny d.data = deliver codec false blob.bytes := by
    intro k blob want stored
    unfold deliver
    rw [← same k blob want stored, magic]
    rfl
  dsimp only
  split
  · rename_i failed
    exact answerInvariant dropped fun k blob want stored _ => failed.symm.trans (right k blob want stored)
  · rename_i plain decoded
    split
    · rename_i keep
      refine answerInvariant ?_ fun k blob want stored _ => decoded.symm.trans (right k blob want stored)
      refine readerInvariant inv rfl rfl rfl (fun k blob stored => ?_) (fun offset out => ?_) inv.reads others rfl
      · have seen := inv.seen k blob stored
        refine ⟨seen.cached, fun begun other hit => ?_⟩
        simp only [Function.update_apply] at hit
        split at hit
        · rename_i there
          obtain ⟨asked, phase⟩ := currentSeen inv (current d found keep) wants stored there begun
          rw [← Option.some.inj hit, ← decoded]
          exact ⟨phase, (right k blob asked stored).symm⟩
        · exact seen.plain begun other hit
      · obtain ⟨other, out⟩ := not_or.mp (List.mem_cons.not.mp out)
        exact ⟨(inv.unfilled offset out).1, (Function.update_of_ne other _ _).trans (inv.unfilled offset out).2⟩
    · exact answerInvariant dropped fun k blob want stored _ => decoded.symm.trans (right k blob want stored)

theorem evictInvariant {w offset decompressed} (inv : Invariant codec w) :
    Invariant codec (evict w offset decompressed) := by
  have gone : ∀ {cache : Nat → Option (List UInt8)} (other : Nat),
      Function.update cache offset none other = cache other ∨ Function.update cache offset none other = none := by
    intro cache other
    rw [Function.update_apply]
    split
    · exact Or.inr rfl
    · exact Or.inl rfl
  have still : ∀ {cache : Nat → Option (List UInt8)} {other : Nat}, cache other = none →
      Function.update cache offset none other = none := fun {cache other} none_ => (gone other).elim (·.trans none_) id
  unfold evict
  split
  · exact readerInvariant inv rfl rfl rfl (fun k blob here => seenFrame (inv.seen k blob here) (Or.inl rfl) (gone _))
      (fun other out => ⟨(inv.unfilled other out).1, still (inv.unfilled other out).2⟩) inv.reads inv.decompressions rfl
  · exact readerInvariant inv rfl rfl rfl (fun k blob here => seenFrame (inv.seen k blob here) (gone _) (Or.inl rfl))
      (fun other out => ⟨still (inv.unfilled other out).1, (inv.unfilled other out).2⟩) inv.reads inv.decompressions rfl

/-! ## Runs -/

theorem performInvariant {w a} (inv : Invariant codec w) (allowed : Allowed w a) (sound : StepSound w a) :
    Invariant codec (perform codec w a) := by
  cases a with
  | allocate kind offset bytes => exact allocateInvariant inv allowed sound
  | beginWrite id => exact beginWriteInvariant inv allowed sound
  | writeMore id count => exact writeMoreInvariant inv allowed
  | finishWrite id => exact finishWriteInvariant inv allowed
  | free id => exact freeInvariant inv
  | read location raw decompressInline => exact readInvariant inv
  | readMore id count => exact readMoreInvariant inv allowed
  | completeRead id cancelled => exact completeReadInvariant inv allowed sound
  | finishDecompression id => exact finishDecompressionInvariant inv sound
  | evict offset decompressed => exact evictInvariant inv

variable (codec)

theorem invariantHolds : Inductive ((system codec).under StepSound) (Invariant codec) := by
  constructor
  · intro w first
    cases first
    exact startInvariant codec
  · intro w a after inv step
    obtain ⟨sound, allowed, rfl⟩ := step
    exact performInvariant inv allowed sound

theorem readsReturnStored {w} (reach : Reachable ((system codec).under StepSound) w) :
    AnswersSound codec w :=
  (reachableInvariant (invariantHolds codec) reach).answers

-- A codec whose compressed blobs start with 255.
def marked : Codec := ⟨fun bytes => bytes.head? = some 255, fun bytes => some bytes.tail⟩

/-! A data blob is read, its bytes are cached twice over, and another read of it is in flight when its range is
freed and ends before the range is written again; a tree goes where nothing has been read. -/

def reusedActions : List Action :=
  [.allocate .data 128 [255, 7], .beginWrite 0, .writeMore 0 2, .finishWrite 0, .read ⟨2, 128⟩ false true,
    .readMore 0 2, .completeRead 0 false, .read ⟨2, 128⟩ false true, .finishDecompression 0, .evict 128 false,
    .read ⟨2, 128⟩ true false, .readMore 1 1, .free 0, .allocate .data 128 [255, 9], .readMore 1 1,
    .completeRead 1 false, .beginWrite 1, .writeMore 1 2, .finishWrite 1, .read ⟨2, 128⟩ false true,
    .allocate .tree 130 [3, 4], .beginWrite 2, .writeMore 2 2, .readMore 2 2, .finishWrite 2, .completeRead 2 false,
    .read ⟨2, 130⟩ false true, .readMore 3 2, .completeRead 3 false]

theorem reusedReturned : AnswersSound marked (reusedActions.foldl (perform marked) start) :=
  readsReturnStored _ (reachableAllowed (by decide))

/-! A tree is written over the freed range of a cached data blob of the same offset. Its write
invalidates nothing, so the read of the tree returns the data blob. -/

def treeActions : List Action :=
  [.allocate .data 128 [1, 2], .beginWrite 0, .writeMore 0 2, .finishWrite 0,
    .read ⟨2, 128⟩ true false, .readMore 0 2, .completeRead 0 false, .free 0,
    .allocate .tree 128 [3, 4], .beginWrite 1, .writeMore 1 2, .finishWrite 1,
    .read ⟨2, 128⟩ true false]

theorem treeAnswer : (treeActions.foldl (perform marked) start).answers =
    [⟨some [1, 2], true, some [1, 2]⟩, ⟨some [3, 4], true, some [1, 2]⟩] := by
  decide

theorem staleTreeRead : ¬∀ codec w, Reachable (system codec) w → AnswersSound codec w := by
  intro all
  have run : AllAllowed (fun w a => True ∧ Allowed w a) (perform marked) start treeActions := by decide
  have sound := all _ _ (reachableUnder (reachableAllowed run))
  have right := sound ⟨some [3, 4], true, some [1, 2]⟩ (by rw [treeAnswer]; decide) [3, 4] rfl
  exact absurd right (by decide)

end Dewfall.BlobReaderRuns
