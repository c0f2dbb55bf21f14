import Dewfall.Converter.ProcessorIdle
import Dewfall.General.Progress
import Mathlib.Algebra.BigOperators.Group.List.Basic

/-! A chunk's way from its reader through the sorter, the storage writer and the tree. Which sorts
and which blob writes fail is part of the plan. Point data, compression and dispatch are left out. -/
namespace Dewfall.ChunkPipeline
open General General.Transition InputRegistry
open DoneBoundary (Changed modifyItemChanged finishReadChanged changedFind)
open ProcessorIdle (modifyTotal finishFrame finishCounted)

structure UnitId where
  file : Nat
  sub : Nat
  deriving DecidableEq, Repr

inductive Blob where
  | written | writeFails | compressFails
  deriving DecidableEq, Repr

structure Chunk where
  sorts : Bool
  mortonMin : Nat
  mortonMax : Nat
  blobs : List Blob
  deriving DecidableEq, Repr

def Chunk.Ok (chunk : Chunk) : Prop := chunk.sorts = true ∧ ∀ blob ∈ chunk.blobs, blob = .written

instance (chunk : Chunk) : Decidable chunk.Ok := by unfold Chunk.Ok; infer_instance

structure Piece where
  id : UnitId
  chunk : Chunk
  deriving DecidableEq, Repr

-- A dispatched file: the chunks it still yields, and whether reading it ends in an error.
structure Reader where
  file : Nat
  next : Nat
  rest : List Chunk
  fails : Bool
  deriving DecidableEq, Repr

structure Writing where
  piece : Piece
  left : List Blob
  error : Bool
  deriving DecidableEq, Repr

inductive Report where
  | file (id : Nat)
  | unit (id : UnitId)
  deriving DecidableEq, Repr

structure World where
  registry : Registry
  readers : List Reader
  -- Events and jobs that wait, each list for one hand-off.
  subs : List Nat
  unsorted : List Piece
  sorted : List Piece
  writing : List Writing
  adds : List Piece
  dones : List Nat
  doneFiles : List Nat
  fileErrors : List Nat
  storageErrors : List UnitId
  produced : List Piece
  tree : List Piece
  hasErrors : Bool
  reported : List Report

def start (registry : Registry) (plan : List Reader) : World :=
  ⟨registry, plan, [], [], [], [], [], [], [], [], [], [], [], false, []⟩

inductive Action where
  | read (reader : Reader)
  | subAdded (file : Nat)
  | sort (piece : Piece)
  | sortedPoints (piece : Piece)
  | writeBlob (writing : Writing)
  | written (writing : Writing)
  | insert (piece : Piece)
  | treeDone (file : Nat)
  | fileDone (reader : Reader)
  | readingDone (file : Nat)
  | fileError (file : Nat)
  | storageError (unit : UnitId)
  deriving DecidableEq, Repr

def readChunk (w : World) (reader : Reader) : World :=
  match reader.rest with
  | [] => w
  | chunk :: rest => { w with
    readers := { reader with rest := rest, next := reader.next + 1 } :: w.readers.erase reader
    subs := reader.file :: w.subs
    unsorted := ⟨⟨reader.file, reader.next⟩, chunk⟩ :: w.unsorted
    produced := ⟨⟨reader.file, reader.next⟩, chunk⟩ :: w.produced }

def sortPoints (w : World) (piece : Piece) : World :=
  { w with unsorted := w.unsorted.erase piece, sorted := piece :: w.sorted }

-- The sort's error arrives with the points and is not looked at.
def handleSortedPoints (w : World) (piece : Piece) : World :=
  { w with
    sorted := w.sorted.erase piece
    registry := InputRegistry.handleSortedPoints w.registry piece.id.file piece.chunk.mortonMin
      piece.chunk.mortonMax
    writing := ⟨piece, piece.chunk.blobs, false⟩ :: w.writing }

def doWrite (w : World) (writing : Writing) : World :=
  match writing.left with
  | [] => w
  | blob :: rest =>
    let next := { writing with left := rest, error := writing.error || blob = .compressFails }
    let after := { w with writing := next :: w.writing.erase writing }
    if blob = .writeFails then { after with storageErrors := writing.piece.id :: w.storageErrors } else after

-- The error handed to the callback is not looked at either.
def handlePointsWritten (w : World) (writing : Writing) : World :=
  { w with writing := w.writing.erase writing, adds := writing.piece :: w.adds }

def addPoints (w : World) (piece : Piece) : World :=
  { w with
    adds := w.adds.erase piece
    tree := piece :: w.tree
    dones := piece.id.file :: w.dones }

def finishFile (w : World) (reader : Reader) : World :=
  { w with
    readers := w.readers.erase reader
    fileErrors := if reader.fails then reader.file :: w.fileErrors else w.fileErrors
    doneFiles := reader.file :: w.doneFiles }

def perform (w : World) : Action → World
  | .read reader => readChunk w reader
  | .subAdded file => { w with subs := w.subs.erase file, registry := handleSubAdded w.registry file }
  | .sort piece => sortPoints w piece
  | .sortedPoints piece => handleSortedPoints w piece
  | .writeBlob writing => doWrite w writing
  | .written writing => handlePointsWritten w writing
  | .insert piece => addPoints w piece
  | .treeDone file => { w with
    dones := w.dones.erase file
    registry := handleTreeDoneWithInput w.registry file }
  | .fileDone reader => finishFile w reader
  | .readingDone file => { w with
    doneFiles := w.doneFiles.erase file
    registry := handleReadingDone w.registry file }
  | .fileError file => { w with
    fileErrors := w.fileErrors.erase file
    hasErrors := true
    reported := .file file :: w.reported }
  | .storageError unit => { w with
    storageErrors := w.storageErrors.erase unit
    hasErrors := true
    reported := .unit unit :: w.reported }

def Allowed (w : World) : Action → Prop
  | .read reader => reader ∈ w.readers ∧ reader.rest ≠ []
  | .subAdded file => file ∈ w.subs
  | .sort piece => piece ∈ w.unsorted
  | .sortedPoints piece => piece ∈ w.sorted
  | .writeBlob writing => writing ∈ w.writing ∧ writing.left ≠ []
  | .written writing => writing ∈ w.writing ∧ writing.left = []
  | .insert piece => piece ∈ w.adds
  | .treeDone file => file ∈ w.dones
  | .fileDone reader => reader ∈ w.readers ∧ reader.rest = [] ∧
      ∀ piece ∈ w.unsorted, piece.id.file ≠ reader.file
  | .readingDone file => file ∈ w.doneFiles
  | .fileError file => file ∈ w.fileErrors
  | .storageError unit => unit ∈ w.storageErrors

instance (w a) : Decidable (Allowed w a) := by
  cases a <;> dsimp only [Allowed] <;> infer_instance

def system (registry : Registry) (plan : List Reader) : System World Action :=
  System.ofFunction (start registry plan) Allowed perform

-- The files of the plan are registered and nothing else has happened.
structure Registered (registry : Registry) (plan : List Reader) : Prop where
  files : ∀ id item, registry.items.find id = some item →
    item.readFinished = false ∧ ∃ reader ∈ plan, reader.file = id
  added : registry.inputDataWithSubParts = 0
  inserted : registry.inputDataInsertedToTree = 0
  finished : registry.inputDataIdDoneCount = 0

structure Quiet (w : World) : Prop where
  readers : w.readers = []
  subs : w.subs = []
  unsorted : w.unsorted = []
  sorted : w.sorted = []
  writing : w.writing = []
  adds : w.adds = []
  dones : w.dones = []
  doneFiles : w.doneFiles = []
  fileErrors : w.fileErrors = []
  storageErrors : w.storageErrors = []

structure Sound (w : World) : Prop where
  added : ∀ piece ∈ w.tree, piece.chunk.Ok
  reported : Quiet w → ∀ piece ∈ w.produced, ¬piece.chunk.Ok → .unit piece.id ∈ w.reported
  retired : Quiet w → allInsertedIntoTree w.registry = true

/-! ## Accounting -/

structure Accounted (w : World) : Prop where
  chunks : w.registry.inputDataWithSubParts + w.subs.length = w.registry.inputDataInsertedToTree +
    (w.unsorted.length + w.sorted.length + w.writing.length + w.adds.length + w.dones.length)
  finished : w.registry.inputDataIdDoneCount = w.registry.items.total fun item => item.readFinished.toNat
  files : ∀ id item, w.registry.items.find id = some item → item.readFinished = false →
    (∃ reader ∈ w.readers, reader.file = id) ∨ id ∈ w.doneFiles

theorem totalConst {items : DenseMap Nat Item} {f : Item → Nat} {c}
    (all : ∀ id item, items.find id = some item → f item = c) : items.total f = items.entries.length * c := by
  have same : items.entries.map (fun e => f e.2) = items.entries.map fun _ => c :=
    List.map_congr_left fun e mem => all e.1 e.2 (DenseMap.findMem.mpr mem)
  rw [DenseMap.total, same, List.map_const', List.sum_replicate_nat]

theorem startAccounted {registry plan} (known : Registered registry plan) :
    Accounted (start registry plan) := by
  refine ⟨?_, ?_, ?_⟩
  · simp [start, known.added, known.inserted]
  · have none := totalConst (f := fun item => item.readFinished.toNat) (c := 0) fun id item found => by
      rw [(known.files id item found).1, Bool.toNat_false]
    exact known.finished.trans (none.trans (Nat.mul_zero _)).symm
  · intro id item found _
    exact Or.inl (known.files id item found).2

theorem modifyAccounted {w after : World} {id : Nat} {f : Item → Item} (acc : Accounted w)
    (items : after.registry.items = modifyItem w.registry.items id f)
    (keeps : ∀ item, (f item).readFinished = item.readFinished)
    (count : after.registry.inputDataIdDoneCount = w.registry.inputDataIdDoneCount)
    (readers : after.readers = w.readers) (doneFiles : after.doneFiles = w.doneFiles)
    (chunks : after.registry.inputDataWithSubParts + after.subs.length =
      after.registry.inputDataInsertedToTree + (after.unsorted.length + after.sorted.length +
        after.writing.length + after.adds.length + after.dones.length)) : Accounted after := by
  refine ⟨chunks, ?_, fun k item found unread => ?_⟩
  · rw [count, acc.finished, items, modifyTotal w.registry.items id f keeps]
  · rw [items] at found
    obtain ⟨old, there, rfl⟩ := changedFind (modifyItemChanged w.registry.items id f) found
    rw [readers, doneFiles]
    refine acc.files k old there ?_
    split at unread
    · rwa [keeps] at unread
    · exact unread

theorem quietRetired {w} (acc : Accounted w) (quiet : Quiet w) : allInsertedIntoTree w.registry = true := by
  have every : ∀ id item, w.registry.items.find id = some item → item.readFinished.toNat = 1 := by
    intro id item found
    cases finished : item.readFinished with
    | true => rfl
    | false =>
      rcases acc.files id item found finished with ⟨reader, mem, _⟩ | mem
      · simp [quiet.readers] at mem
      · simp [quiet.doneFiles] at mem
  have chunks := acc.chunks
  simp only [quiet.subs, quiet.unsorted, quiet.sorted, quiet.writing, quiet.adds, quiet.dones,
    List.length_nil, Nat.add_zero] at chunks
  simp [allInsertedIntoTree, acc.finished, totalConst every, chunks]

theorem eraseCount {α : Type} [DecidableEq α] {a : α} {l : List α} (mem : a ∈ l) :
    (l.erase a).length + 1 = l.length := by
  rw [List.length_erase_of_mem mem]
  exact Nat.sub_add_cancel (List.length_pos_of_mem mem)

theorem readAccounted {w reader} (acc : Accounted w) :
    Accounted (readChunk w reader) := by
  obtain ⟨chunks, finished, files⟩ := acc
  unfold readChunk
  split
  · exact ⟨chunks, finished, files⟩
  · refine ⟨?_, finished, fun id item found unread => ?_⟩
    · simp only [List.length_cons]
      omega
    · refine (files id item found unread).imp_left ?_
      rintro ⟨other, mem, rfl⟩
      by_cases same : other = reader
      · exact ⟨_, List.mem_cons_self, by rw [same]⟩
      · exact ⟨other, List.mem_cons_of_mem _ ((List.mem_erase_of_ne same).mpr mem), rfl⟩

theorem writeAccounted {w writing} (acc : Accounted w) (here : writing ∈ w.writing) :
    Accounted (doWrite w writing) := by
  obtain ⟨chunks, finished, files⟩ := acc
  have count := eraseCount here
  unfold doWrite
  split
  · exact ⟨chunks, finished, files⟩
  · dsimp only
    split
    · refine ⟨?_, finished, files⟩
      simp only [List.length_cons]
      omega
    · refine ⟨?_, finished, files⟩
      simp only [List.length_cons]
      omega

theorem fileDoneAccounted {w reader} (acc : Accounted w) : Accounted (finishFile w reader) := by
  refine ⟨acc.chunks, acc.finished, fun id item found unread => ?_⟩
  rcases acc.files id item found unread with ⟨other, mem, rfl⟩ | mem
  · by_cases same : other = reader
    · exact Or.inr (same ▸ List.mem_cons_self)
    · exact Or.inl ⟨other, (List.mem_erase_of_ne same).mpr mem, rfl⟩
  · exact Or.inr (List.mem_cons_of_mem _ mem)

theorem readingDoneAccounted {w file} (acc : Accounted w) : Accounted { w with
    doneFiles := w.doneFiles.erase file
    registry := handleReadingDone w.registry file } := by
  obtain ⟨_, _, _, _, withSub, inserted⟩ := finishFrame w.registry file
  refine ⟨?_, finishCounted acc.finished, fun id item found unread => ?_⟩
  · simp only [handleReadingDone, withSub, inserted]
    exact acc.chunks
  · obtain ⟨old, there, rfl⟩ := changedFind (finishReadChanged w.registry file) found
    split at unread
    · exact absurd unread (by simp)
    · rename_i other
      refine (acc.files id old there unread).imp_right fun mem => ?_
      exact (List.mem_erase_of_ne other).mpr mem

theorem performAccounted {w a} (acc : Accounted w) (allowed : Allowed w a) : Accounted (perform w a) := by
  have chunks := acc.chunks
  cases a with
  | read reader => exact readAccounted acc
  | subAdded file =>
    have count := eraseCount (show file ∈ w.subs from allowed)
    refine modifyAccounted acc rfl (fun _ => rfl) rfl rfl rfl ?_
    simp only [perform, handleSubAdded]
    omega
  | sort piece =>
    have count := eraseCount (show piece ∈ w.unsorted from allowed)
    refine ⟨?_, acc.finished, acc.files⟩
    simp only [perform, sortPoints, List.length_cons]
    omega
  | sortedPoints piece =>
    have count := eraseCount (show piece ∈ w.sorted from allowed)
    refine modifyAccounted acc rfl (fun _ => rfl) rfl rfl rfl ?_
    simp only [perform, handleSortedPoints, InputRegistry.handleSortedPoints, List.length_cons]
    omega
  | writeBlob writing => exact writeAccounted acc allowed.1
  | written writing =>
    have count := eraseCount allowed.1
    refine ⟨?_, acc.finished, acc.files⟩
    simp only [perform, handlePointsWritten, List.length_cons]
    omega
  | insert piece =>
    have count := eraseCount (show piece ∈ w.adds from allowed)
    refine ⟨?_, acc.finished, acc.files⟩
    simp only [perform, addPoints, List.length_cons]
    omega
  | treeDone file =>
    have count := eraseCount (show file ∈ w.dones from allowed)
    refine modifyAccounted acc rfl (fun _ => rfl) rfl rfl rfl ?_
    simp only [perform, handleTreeDoneWithInput]
    omega
  | fileDone reader => exact fileDoneAccounted acc
  | readingDone file => exact readingDoneAccounted acc
  | fileError file => exact ⟨chunks, acc.finished, acc.files⟩
  | storageError unit => exact ⟨chunks, acc.finished, acc.files⟩

/-! ## What the lists hold -/

-- Every chunk that is yet to be read, on its way or in the tree.
structure Holds (p : Chunk → Prop) (w : World) : Prop where
  readers : ∀ reader ∈ w.readers, ∀ chunk ∈ reader.rest, p chunk
  produced : ∀ piece ∈ w.produced, p piece.chunk
  unsorted : ∀ piece ∈ w.unsorted, p piece.chunk
  sorted : ∀ piece ∈ w.sorted, p piece.chunk
  writing : ∀ writing ∈ w.writing, p writing.piece.chunk
  adds : ∀ piece ∈ w.adds, p piece.chunk
  tree : ∀ piece ∈ w.tree, p piece.chunk

theorem performHolds {p : Chunk → Prop} {w a} (holds : Holds p w) (allowed : Allowed w a) :
    Holds p (perform w a) := by
  have kept {α : Type} [DecidableEq α] {q : α → Prop} {l : List α} {a : α} (all : ∀ x ∈ l, q x) :
      ∀ x ∈ l.erase a, q x := fun x mem => all x (List.mem_of_mem_erase mem)
  have more {α : Type} {q : α → Prop} {l : List α} {a : α} (head : q a) (all : ∀ x ∈ l, q x) :
      ∀ x ∈ a :: l, q x := List.forall_mem_cons.mpr ⟨head, all⟩
  cases a with
  | read reader =>
    simp only [perform, readChunk]
    split
    · exact holds
    · rename_i chunk rest here
      have all := holds.readers reader allowed.1
      rw [here] at all
      obtain ⟨head, tail⟩ := List.forall_mem_cons.mp all
      exact { holds with
        readers := more tail (kept holds.readers)
        produced := more head holds.produced
        unsorted := more head holds.unsorted }
  | subAdded file => exact { holds with }
  | sort piece =>
    exact { holds with
      unsorted := kept holds.unsorted
      sorted := more (holds.unsorted piece allowed) holds.sorted }
  | sortedPoints piece =>
    exact { holds with
      sorted := kept holds.sorted
      writing := more (holds.sorted piece allowed) holds.writing }
  | writeBlob writing =>
    simp only [perform, doWrite]
    split
    · exact holds
    · split
      · exact { holds with writing := more (holds.writing writing allowed.1) (kept holds.writing) }
      · exact { holds with writing := more (holds.writing writing allowed.1) (kept holds.writing) }
  | written writing =>
    exact { holds with
      writing := kept holds.writing
      adds := more (holds.writing writing allowed.1) holds.adds }
  | insert piece =>
    exact { holds with
      adds := kept holds.adds
      tree := more (holds.adds piece allowed) holds.tree }
  | treeDone file => exact { holds with }
  | fileDone reader => exact { holds with readers := kept holds.readers }
  | readingDone file => exact { holds with }
  | fileError file => exact { holds with }
  | storageError unit => exact { holds with }

/-! ## What is left to do -/

-- Every hand-off lowers the price of what it hands on; a write of a blob may leave an error to be reported.
def writeWork (writing : Writing) : Nat := 3 + 2 * writing.left.length
def sortedWork (piece : Piece) : Nat := 4 + 2 * piece.chunk.blobs.length
def unsortedWork (piece : Piece) : Nat := 5 + 2 * piece.chunk.blobs.length
def chunkWork (chunk : Chunk) : Nat := 7 + 2 * chunk.blobs.length
def readerWork (reader : Reader) : Nat := 3 + (reader.rest.map chunkWork).sum

def work (w : World) : Nat :=
  (w.readers.map readerWork).sum + w.subs.length + (w.unsorted.map unsortedWork).sum + (w.sorted.map sortedWork).sum +
    (w.writing.map writeWork).sum + 2 * w.adds.length + w.dones.length + w.doneFiles.length + w.fileErrors.length +
    w.storageErrors.length

theorem writeDrops {w writing} (here : writing ∈ w.writing) (more : writing.left ≠ []) :
    work (doWrite w writing) < work w := by
  have taken := List.sum_map_erase writeWork here
  obtain ⟨blob, rest, left⟩ := List.exists_cons_of_ne_nil more
  have price : writeWork writing = 5 + 2 * rest.length := by
    rw [writeWork, left, List.length_cons]
    omega
  unfold doWrite
  rw [left]
  dsimp only
  split
  all_goals
    simp only [work, List.map_cons, List.sum_cons, List.length_cons, writeWork] at *
    omega

theorem readDrops {w reader} (here : reader ∈ w.readers) (more : reader.rest ≠ []) :
    work (readChunk w reader) < work w := by
  have taken := List.sum_map_erase readerWork here
  obtain ⟨chunk, rest, left⟩ := List.exists_cons_of_ne_nil more
  have price : readerWork reader = 3 + (chunkWork chunk + (rest.map chunkWork).sum) := by
    rw [readerWork, left, List.map_cons, List.sum_cons]
  unfold readChunk
  rw [left]
  simp only [work, List.map_cons, List.sum_cons, List.length_cons, readerWork, unsortedWork, chunkWork] at *
  omega

theorem performDrops {w a} (allowed : Allowed w a) : work (perform w a) < work w := by
  cases a with
  | read reader => exact readDrops allowed.1 allowed.2
  | subAdded file =>
    have count := eraseCount (show file ∈ w.subs from allowed)
    simp only [perform, work]
    omega
  | sort piece =>
    have taken := List.sum_map_erase unsortedWork (show piece ∈ w.unsorted from allowed)
    simp only [perform, sortPoints, work, List.map_cons, List.sum_cons, sortedWork, unsortedWork] at *
    omega
  | sortedPoints piece =>
    have taken := List.sum_map_erase sortedWork (show piece ∈ w.sorted from allowed)
    simp only [perform, handleSortedPoints, work, List.map_cons, List.sum_cons, sortedWork, writeWork] at *
    omega
  | writeBlob writing => exact writeDrops allowed.1 allowed.2
  | written writing =>
    have taken := List.sum_map_erase writeWork allowed.1
    simp only [perform, handlePointsWritten, work, List.length_cons, writeWork] at *
    omega
  | insert piece =>
    have count := eraseCount (show piece ∈ w.adds from allowed)
    simp only [perform, addPoints, work, List.length_cons]
    omega
  | treeDone file =>
    have count := eraseCount (show file ∈ w.dones from allowed)
    simp only [perform, work]
    omega
  | fileDone reader =>
    have taken := List.sum_map_erase readerWork allowed.1
    simp only [perform, finishFile, work, List.length_cons, readerWork] at *
    split
    · rw [List.length_cons]
      omega
    · omega
  | readingDone file =>
    have count := eraseCount (show file ∈ w.doneFiles from allowed)
    simp only [perform, work]
    omega
  | fileError file =>
    have count := eraseCount (show file ∈ w.fileErrors from allowed)
    simp only [perform, work]
    omega
  | storageError unit =>
    have count := eraseCount (show unit ∈ w.storageErrors from allowed)
    simp only [perform, work]
    omega

-- A reader waits for the sorts of its chunks, and for nothing else.
theorem someAllowed {w} (busy : ¬Quiet w) : ∃ a, Allowed w a := by
  by_contra stuck
  have none_ : ∀ a, ¬Allowed w a := fun a allowed => stuck ⟨a, allowed⟩
  have empty {α : Type} {l : List α} (away : ∀ x, x ∉ l) : l = [] := List.eq_nil_iff_forall_not_mem.mpr away
  have unsorted := empty fun piece here => none_ (.sort piece) here
  refine busy ⟨?_, ?_, unsorted, ?_, ?_, ?_, ?_, ?_, ?_, ?_⟩
  · refine empty fun reader here => ?_
    by_cases rest : reader.rest = []
    · exact none_ (.fileDone reader) ⟨here, rest, by simp [unsorted]⟩
    · exact none_ (.read reader) ⟨here, rest⟩
  · exact empty fun file here => none_ (.subAdded file) here
  · exact empty fun piece here => none_ (.sortedPoints piece) here
  · refine empty fun writing here => ?_
    by_cases left : writing.left = []
    · exact none_ (.written writing) ⟨here, left⟩
    · exact none_ (.writeBlob writing) ⟨here, left⟩
  · exact empty fun piece here => none_ (.insert piece) here
  · exact empty fun file here => none_ (.treeDone file) here
  · exact empty fun file here => none_ (.readingDone file) here
  · exact empty fun file here => none_ (.fileError file) here
  · exact empty fun unit here => none_ (.storageError unit) here

/-! ## A chunk goes all the way -/

variable {registry : Registry} {plan : List Reader}

def Reached (registry : Registry) (plan : List Reader) (w : World) : Prop :=
  Reachable (system registry plan) w

theorem reachedStep {w a} (reach : Reached registry plan w) (allowed : Allowed w a) :
    Reached registry plan (perform w a) := reachableStep reach ⟨allowed, rfl⟩

theorem readReached {rest : List Chunk} {chunk} (mem : chunk ∈ rest) : ∀ {w reader}, reader.rest = rest →
    reader ∈ w.readers → Reached registry plan w →
    ∃ w', Reached registry plan w' ∧ ∃ piece ∈ w'.unsorted, piece.chunk = chunk := by
  induction rest with
  | nil => simp at mem
  | cons head tail ih =>
    intro w reader same here reach
    have next := reachedStep (a := .read reader) reach ⟨here, by simp [same]⟩
    have after : perform w (.read reader) = { w with
        readers := { reader with rest := tail, next := reader.next + 1 } :: w.readers.erase reader
        subs := reader.file :: w.subs
        unsorted := ⟨⟨reader.file, reader.next⟩, head⟩ :: w.unsorted
        produced := ⟨⟨reader.file, reader.next⟩, head⟩ :: w.produced } := by
      simp only [perform, readChunk, same]
    rw [after] at next
    rcases List.mem_cons.mp mem with rfl | mem
    · exact ⟨_, next, _, List.mem_cons_self, rfl⟩
    · exact ih mem rfl List.mem_cons_self next

theorem writeReached {left : List Blob} : ∀ w writing, writing.left = left → writing ∈ w.writing →
    Reached registry plan w → ∃ w', Reached registry plan w' ∧
      ∃ after ∈ w'.writing, after.piece = writing.piece ∧ after.left = [] := by
  induction left with
  | nil =>
    intro w writing same here reach
    exact ⟨w, reach, writing, here, rfl, same⟩
  | cons blob rest ih =>
    intro w writing same here reach
    have next := reachedStep (a := .writeBlob writing) reach ⟨here, by simp [same]⟩
    let later : Writing :=
      { writing with left := rest, error := writing.error || decide (blob = .compressFails) }
    have mem : later ∈ (perform w (.writeBlob writing)).writing := by
      simp only [perform, doWrite, same]
      split <;> exact List.mem_cons_self
    exact ih _ later rfl mem next

theorem insertReached {w piece} (here : piece ∈ w.unsorted) (reach : Reached registry plan w) :
    ∃ w', Reached registry plan w' ∧ piece ∈ w'.tree := by
  have sorted := reachedStep (a := .sort piece) reach here
  have posted := reachedStep (a := .sortedPoints piece) sorted List.mem_cons_self
  obtain ⟨w', written, writing, mem, same, left⟩ :=
    writeReached _ ⟨piece, piece.chunk.blobs, false⟩ rfl List.mem_cons_self posted
  have handed := reachedStep (a := .written writing) written ⟨mem, left⟩
  have queued : piece ∈ (perform w' (.written writing)).adds :=
    List.mem_cons.mpr (Or.inl same.symm)
  exact ⟨_, reachedStep (a := .insert piece) handed queued, List.mem_cons_self⟩

/-! ## Runs -/

theorem reachedAccounted (known : Registered registry plan) {w} (reach : Reached registry plan w) :
    Accounted w := by
  refine reachableInvariant ⟨?_, ?_⟩ reach
  · rintro w rfl
    exact startAccounted known
  · rintro w a after acc ⟨allowed, rfl⟩
    exact performAccounted acc allowed

theorem reachedHolds {p : Chunk → Prop} (all : ∀ reader ∈ plan, ∀ chunk ∈ reader.rest, p chunk) {w}
    (reach : Reached registry plan w) : Holds p w := by
  refine reachableInvariant ⟨?_, ?_⟩ reach
  · rintro w rfl
    exact ⟨all, by simp [start], by simp [start], by simp [start], by simp [start], by simp [start],
      by simp [start]⟩
  · rintro w a after holds ⟨allowed, rfl⟩
    exact performHolds holds allowed

theorem quietInevitable (w : World) : Inevitable (system registry plan) Quiet w := by
  refine @inevitable _ _ _ (fun _ => True) _ work (fun _ _ _ _ _ => trivial) ?_ ?_ _ trivial
  · rintro w a after _ ⟨allowed, rfl⟩
    exact performDrops allowed
  · intro w _ busy
    obtain ⟨a, allowed⟩ := someAllowed busy
    exact ⟨a, _, allowed, rfl⟩

theorem unitsSound (known : Registered registry plan) :
    ((∀ w, Reachable (system registry plan) w → Sound w) ↔
      ∀ reader ∈ plan, ∀ chunk ∈ reader.rest, chunk.Ok) ∧
    ∀ w, Reachable (system registry plan) w → (Quiet w → allInsertedIntoTree w.registry = true) ∧
      Inevitable (system registry plan) Quiet w := by
  refine ⟨⟨?_, ?_⟩, fun w reach => ⟨quietRetired (reachedAccounted known reach), quietInevitable w⟩⟩
  · intro sound reader mem chunk inside
    obtain ⟨read, reach, piece, here, rfl⟩ :=
      readReached inside rfl mem (reachableInitial (M := system registry plan) rfl)
    obtain ⟨w, reach, added⟩ := insertReached here reach
    exact (sound w reach).added piece added
  · intro all w reach
    have holds := reachedHolds all reach
    refine ⟨holds.tree, fun _ piece mem bad => absurd (holds.produced piece mem) bad, ?_⟩
    exact quietRetired (reachedAccounted known reach)

def oneFile : Registry := (registerFile (appendLayout Nat Item) empty [97]).1

def onePlan (chunk : Chunk) : List Reader := [⟨0, 0, [chunk], false⟩]

theorem oneRegistered (chunk : Chunk) : Registered oneFile (onePlan chunk) := by
  refine ⟨fun id item found => ?_, rfl, rfl, rfl⟩
  have mem : (id, item) ∈ [(0, freshItem [97])] := DenseMap.findMem.mp found
  simp only [List.mem_singleton, Prod.mk.injEq] at mem
  obtain ⟨rfl, rfl⟩ := mem
  exact ⟨rfl, _, List.mem_singleton.mpr rfl, rfl⟩

theorem writtenUnitSound :
    (∀ w, Reachable (system oneFile (onePlan ⟨true, 5, 9, [.written, .written]⟩)) w → Sound w) ∧
      Inevitable (system oneFile (onePlan ⟨true, 5, 9, [.written, .written]⟩)) Quiet
        (start oneFile (onePlan ⟨true, 5, 9, [.written, .written]⟩)) := by
  obtain ⟨sound, runs⟩ := unitsSound (oneRegistered ⟨true, 5, 9, [.written, .written]⟩)
  exact ⟨sound.mpr (by decide), (runs _ (reachableInitial rfl)).2⟩

-- The sort finds the data outside the dataset's range and the blobs are written all the same.
def unsortedActions : List Action :=
  let piece : Piece := ⟨⟨0, 0⟩, ⟨false, 0, 0, [.written]⟩⟩
  [.read ⟨0, 0, [piece.chunk], false⟩, .sort piece, .sortedPoints piece, .writeBlob ⟨piece, [.written], false⟩,
    .written ⟨piece, [], false⟩, .insert piece]

theorem unsortedUnitAdded : ¬∀ registry plan, Registered registry plan →
    ∀ w, Reachable (system registry plan) w → Sound w := by
  intro all
  have run : AllAllowed (fun w a => True ∧ Allowed w a) perform
      (start oneFile (onePlan ⟨false, 0, 0, [.written]⟩)) unsortedActions := by decide
  have sound := all _ _ (oneRegistered _) _ (reachableUnder (reachableAllowed run))
  exact absurd (sound.added ⟨⟨0, 0⟩, ⟨false, 0, 0, [.written]⟩⟩ (by decide)) (by decide)

end Dewfall.ChunkPipeline
