import Dewfall.General.Transition
import Mathlib.Logic.Function.Basic

/-! The writes of a checkpoint and where their errors go, from the dirty trees to the superblock.
Every allocation is a fresh blob; ranges, reuse and the contents of trees are not treated. A write
that reports an error has written nothing, the superblock's included. -/
namespace Dewfall.CheckpointWrites
open General.Transition

structure Superblock where
  blobs : Nat
  attributes : Nat
  treeRegistry : Nat
  stats : Nat
  perf : Nat
  residency : Option Nat
  deriving DecidableEq, Repr

def metadata (sb : Superblock) : List Nat :=
  [sb.blobs, sb.attributes, sb.stats, sb.perf] ++ sb.residency.toList

-- Where the chain stands between two suspension points.
inductive Chain where
  | idle
  | trees (all left : List (Nat × Nat)) (error : Bool)
  | registry (blob : Nat)
  | index (registry : Nat)
  | header (next : Superblock) (left : List Nat)
  deriving DecidableEq, Repr

structure World where
  nextBlob : Nat
  written : List Nat
  -- Blobs whose write reported an error; the code keeps no such list.
  failed : List Nat
  locations : Nat → Option Nat
  dirty : List Nat
  -- What a registry blob lists for each tree.
  tables : Nat → Nat → Option Nat
  hasResidency : Bool
  chain : Chain
  superblock : Option Superblock

inductive Action where
  | dirtyTree (tree : Nat)
  | serializeTrees
  | writeTree (ok : Bool)
  | treesWritten
  | writeRegistry (ok : Bool)
  | prepareIndex (ok : Bool)
  | writeMetadata (ok : Bool)
  | writeSuperblock (ok : Bool)
  deriving DecidableEq, Repr

def serializeTrees (w : World) : World :=
  let writes := w.dirty.zipIdx w.nextBlob
  { w with
    dirty := []
    nextBlob := w.nextBlob + writes.length
    chain := .trees writes writes false }

def landed (w : World) (blob : Nat) (ok : Bool) : List Nat := if ok then blob :: w.written else w.written

def missed (w : World) (blob : Nat) (ok : Bool) : List Nat := if ok then w.failed else blob :: w.failed

def writeBlob (w : World) (blob : Nat) (ok : Bool) (chain : Chain) : World :=
  { w with written := landed w blob ok, failed := missed w blob ok, chain := chain }

def setLocations (locations : Nat → Option Nat) (writes : List (Nat × Nat)) : Nat → Option Nat :=
  writes.foldl (fun locations write => Function.update locations write.1 (some write.2)) locations

def treesWritten (w : World) (all : List (Nat × Nat)) (error : Bool) : World :=
  if error then { w with dirty := w.dirty ++ all.map Prod.fst, chain := .idle }
  else
    let locations := setLocations w.locations all
    { w with
      locations := locations
      tables := Function.update w.tables w.nextBlob locations
      nextBlob := w.nextBlob + 1
      chain := .registry w.nextBlob }

-- The allocator part of write_index; it may fail before anything is written.
def prepareIndex (w : World) (registry : Nat) (ok : Bool) : World :=
  if ok then
    let residency := if w.hasResidency then some (w.nextBlob + 4) else none
    let next : Superblock :=
      ⟨w.nextBlob, w.nextBlob + 1, registry, w.nextBlob + 2, w.nextBlob + 3, residency⟩
    { w with nextBlob := w.nextBlob + 5, chain := .header next (metadata next) }
  else { w with chain := .idle }

def perform (w : World) : Action → World
  | .dirtyTree tree => { w with dirty := tree :: w.dirty.erase tree }
  | .serializeTrees => serializeTrees w
  | .writeTree ok =>
    match w.chain with
    | .trees all ((_, blob) :: left) error =>
      writeBlob w blob ok (.trees all left (error || !ok))
    | _ => w
  | .treesWritten =>
    match w.chain with
    | .trees all [] error => treesWritten w all error
    | _ => w
  | .writeRegistry ok =>
    match w.chain with
    -- The result's error is printed and not looked at again.
    | .registry blob => writeBlob w blob ok (.index blob)
    | _ => w
  | .prepareIndex ok =>
    match w.chain with
    | .index registry => prepareIndex w registry ok
    | _ => w
  | .writeMetadata ok =>
    match w.chain with
    | .header next (blob :: left) =>
      writeBlob w blob ok (if ok then .header next left else .idle)
    | _ => w
  | .writeSuperblock ok =>
    match w.chain with
    | .header next [] => { w with superblock := if ok then some next else w.superblock, chain := .idle }
    | _ => w

def Chain.accepts : Chain → Action → Bool
  | _, .dirtyTree _ => true
  | .idle, .serializeTrees => true
  | .trees _ (_ :: _) _, .writeTree _ => true
  | .trees _ [] _, .treesWritten => true
  | .registry _, .writeRegistry _ => true
  | .index _, .prepareIndex _ => true
  | .header _ (_ :: _), .writeMetadata _ => true
  | .header _ [], .writeSuperblock _ => true
  | _, _ => false

abbrev Allowed (w : World) (a : Action) : Prop := w.chain.accepts a = true

def system (start : World) : System World Action := System.ofFunction start Allowed perform

structure Complete (w : World) (sb : Superblock) : Prop where
  metadata : ∀ blob ∈ metadata sb, blob ∈ w.written
  registry : sb.treeRegistry ∈ w.written
  trees : ∀ tree blob, w.tables sb.treeRegistry tree = some blob → blob ∈ w.written

-- A dataset as it was opened: nothing under way, and everything listed is there.
structure Opened (w : World) : Prop where
  idle : w.chain = .idle
  locations : ∀ tree blob, w.locations tree = some blob → blob ∈ w.written
  tables : ∀ registry tree blob, w.tables registry tree = some blob → blob ∈ w.written
  superblock : ∀ sb ∈ w.superblock, Complete w sb

def Chain.registry? : Chain → Option Nat
  | .header next _ => some next.treeRegistry
  | _ => none

-- A superblock is not written once the write of its registry has failed.
abbrev StepSound (w : World) (a : Action) : Prop :=
  a = .writeSuperblock true → ∀ registry ∈ w.chain.registry?, registry ∉ w.failed

/-! ## The chain's invariant -/

def Settled (w : World) (blob : Nat) : Prop := blob ∈ w.written ∨ blob ∈ w.failed

def ChainSound (w : World) : Chain → Prop
  | .trees all left error => error = false → ∀ write ∈ all, write ∈ left ∨ write.2 ∈ w.written
  | .index registry => Settled w registry
  | .header next left =>
    (∀ blob ∈ metadata next, blob ∈ left ∨ blob ∈ w.written) ∧ Settled w next.treeRegistry
  | _ => True

structure Invariant (w : World) : Prop where
  locations : ∀ tree blob, w.locations tree = some blob → blob ∈ w.written
  tables : ∀ registry tree blob, w.tables registry tree = some blob → blob ∈ w.written
  superblock : ∀ sb ∈ w.superblock, Complete w sb
  chain : ChainSound w w.chain

theorem openedInvariant {w} (opened : Opened w) : Invariant w := by
  refine ⟨opened.locations, opened.tables, opened.superblock, ?_⟩
  rw [opened.idle]
  trivial

theorem landedMore {w : World} {blob ok} {b : Nat} (mem : b ∈ w.written) : b ∈ landed w blob ok := by
  unfold landed
  split
  · exact List.mem_cons_of_mem _ mem
  · exact mem

theorem landedHere {w : World} {blob : Nat} : blob ∈ landed w blob true := List.mem_cons_self

theorem writeSettled {w blob ok chain} : Settled (writeBlob w blob ok chain) blob := by
  cases ok
  · exact Or.inr List.mem_cons_self
  · exact Or.inl List.mem_cons_self

theorem settledMore {w blob ok chain} {b : Nat} (known : Settled w b) :
    Settled (writeBlob w blob ok chain) b := by
  rcases known with here | here
  · exact Or.inl (landedMore here)
  · refine Or.inr ?_
    simp only [writeBlob, missed]
    split
    · exact here
    · exact List.mem_cons_of_mem _ here

-- One more blob on disk keeps everything but the chain.
theorem writeInvariant {w blob ok chain} (inv : Invariant w)
    (sound : ChainSound (writeBlob w blob ok chain) chain) : Invariant (writeBlob w blob ok chain) := by
  refine ⟨fun tree b here => landedMore (inv.locations tree b here),
    fun registry tree b here => landedMore (inv.tables registry tree b here), fun sb here => ?_, sound⟩
  have complete := inv.superblock sb here
  exact ⟨fun b mem => landedMore (complete.metadata b mem), landedMore complete.registry,
    fun tree b here => landedMore (complete.trees tree b here)⟩

theorem setLocationsWritten {written : List Nat} {writes : List (Nat × Nat)} : ∀ {locations : Nat → Option Nat},
    (∀ tree blob, locations tree = some blob → blob ∈ written) → (∀ write ∈ writes, write.2 ∈ written) →
    ∀ tree blob, setLocations locations writes tree = some blob → blob ∈ written := by
  induction writes with
  | nil => exact fun known _ => known
  | cons write rest ih =>
    intro locations known all
    obtain ⟨head, tail⟩ := List.forall_mem_cons.mp all
    refine ih (fun tree blob here => ?_) tail
    dsimp only at here
    rw [Function.update_apply] at here
    split at here
    · cases here
      exact head
    · exact known tree blob here

-- Everything but the chain, the dirty list and the counter is as it was.
theorem sameDiskInvariant {w : World} {dirty nextBlob chain} (inv : Invariant w)
    (sound : ChainSound w chain) :
    Invariant { w with dirty := dirty, nextBlob := nextBlob, chain := chain } := by
  refine ⟨inv.locations, inv.tables, fun sb here => ?_, ?_⟩
  · have complete := inv.superblock sb here
    exact ⟨complete.metadata, complete.registry, complete.trees⟩
  · cases chain <;> exact sound

theorem treesWrittenInvariant {w all error} (inv : Invariant w) (chain : w.chain = .trees all [] error) :
    Invariant (treesWritten w all error) := by
  unfold treesWritten
  have sound := inv.chain
  rw [chain] at sound
  split
  · exact sameDiskInvariant inv trivial
  · rename_i fine
    have landed : ∀ write ∈ all, write.2 ∈ w.written := by
      intro write mem
      rcases sound (Bool.eq_false_iff.mpr fine) write mem with pending | here
      · contradiction
      · exact here
    have known := setLocationsWritten inv.locations landed
    have tables : ∀ registry tree blob, Function.update w.tables w.nextBlob
        (setLocations w.locations all) registry tree = some blob → blob ∈ w.written := by
      intro registry tree blob here
      rw [Function.update_apply] at here
      split at here
      · exact known tree blob here
      · exact inv.tables registry tree blob here
    refine ⟨known, tables, fun sb here => ?_, trivial⟩
    exact ⟨(inv.superblock sb here).metadata, (inv.superblock sb here).registry, tables sb.treeRegistry⟩

theorem writeTreeInvariant {w all left error ok} {write : Nat × Nat} (inv : Invariant w)
    (chain : w.chain = .trees all (write :: left) error) :
    Invariant (writeBlob w write.2 ok (.trees all left (error || !ok))) := by
  refine writeInvariant inv ?_
  intro fine other mem
  obtain ⟨before, here⟩ := Bool.or_eq_false_iff.mp fine
  have sound := inv.chain
  rw [chain] at sound
  rcases sound before other mem with pending | landed
  · rcases List.mem_cons.mp pending with rfl | later
    · cases ok
      · contradiction
      · exact Or.inr landedHere
    · exact Or.inl later
  · exact Or.inr (landedMore landed)

theorem writeMetadataInvariant {w next left ok} {blob : Nat} (inv : Invariant w)
    (chain : w.chain = .header next (blob :: left)) :
    Invariant (writeBlob w blob ok (if ok then .header next left else .idle)) := by
  refine writeInvariant inv ?_
  have sound := inv.chain
  rw [chain] at sound
  obtain ⟨metadata, registry⟩ := sound
  cases ok
  · trivial
  · refine ⟨fun other mem => ?_, settledMore registry⟩
    rcases metadata other mem with pending | landed
    · rcases List.mem_cons.mp pending with rfl | later
      · exact Or.inr landedHere
      · exact Or.inl later
    · exact Or.inr (List.mem_cons_of_mem _ landed)

theorem writeSuperblockInvariant {w next ok} (inv : Invariant w) (chain : w.chain = .header next [])
    (sound : ok = true → next.treeRegistry ∉ w.failed) :
    Invariant { w with superblock := if ok then some next else w.superblock, chain := .idle } := by
  cases ok
  · exact ⟨inv.locations, inv.tables, fun sb here => ⟨(inv.superblock sb here).metadata,
      (inv.superblock sb here).registry, (inv.superblock sb here).trees⟩, trivial⟩
  · have known := inv.chain
    rw [chain] at known
    refine ⟨inv.locations, inv.tables, fun sb here => ?_, trivial⟩
    cases here
    refine ⟨fun blob mem => ?_, known.2.resolve_right (sound rfl), inv.tables next.treeRegistry⟩
    exact (known.1 blob mem).resolve_left List.not_mem_nil

theorem performInvariant {w a} (inv : Invariant w) (sound : StepSound w a) :
    Invariant (perform w a) := by
  cases a with
  | dirtyTree tree => exact sameDiskInvariant inv inv.chain
  | serializeTrees => exact sameDiskInvariant inv fun _ write mem => Or.inl mem
  | writeTree ok =>
    simp only [perform]
    split
    · rename_i chain
      exact writeTreeInvariant inv chain
    · exact inv
  | treesWritten =>
    simp only [perform]
    split
    · rename_i chain
      exact treesWrittenInvariant inv chain
    · exact inv
  | writeRegistry ok =>
    simp only [perform]
    split
    · exact writeInvariant inv writeSettled
    · exact inv
  | prepareIndex ok =>
    simp only [perform, prepareIndex]
    have known := inv.chain
    split
    · rename_i chain
      rw [chain] at known
      split
      · exact sameDiskInvariant inv ⟨fun blob mem => Or.inl mem, known⟩
      · exact sameDiskInvariant inv trivial
    · exact inv
  | writeMetadata ok =>
    simp only [perform]
    split
    · rename_i chain
      exact writeMetadataInvariant inv chain
    · exact inv
  | writeSuperblock ok =>
    simp only [perform]
    split
    · rename_i next chain
      refine writeSuperblockInvariant inv chain fun fine => ?_
      refine sound (by rw [fine]) _ ?_
      rw [chain]
      rfl
    · exact inv

-- Only the last write of a chain replaces the superblock, and only when it succeeds.
theorem performSuperblock {w a} : (perform w a).superblock = w.superblock ∨
    ∃ next, a = .writeSuperblock true ∧ w.chain = .header next [] ∧
      (perform w a).superblock = some next := by
  cases a with
  | writeSuperblock ok =>
    simp only [perform]
    split
    · rename_i next chain
      cases ok
      · exact Or.inl rfl
      · exact Or.inr ⟨next, rfl, chain, rfl⟩
    · exact Or.inl rfl
  | treesWritten =>
    simp only [perform, treesWritten]
    split
    · split <;> exact Or.inl rfl
    · exact Or.inl rfl
  | prepareIndex ok =>
    simp only [perform, prepareIndex]
    split
    · split <;> exact Or.inl rfl
    · exact Or.inl rfl
  | dirtyTree tree => exact Or.inl rfl
  | serializeTrees => exact Or.inl rfl
  | writeTree ok =>
    simp only [perform]
    split <;> exact Or.inl rfl
  | writeRegistry ok =>
    simp only [perform]
    split <;> exact Or.inl rfl
  | writeMetadata ok =>
    simp only [perform]
    split <;> exact Or.inl rfl

/-! ## Runs -/

theorem reachedInvariant {start w} (opened : Opened start)
    (reach : Reachable ((system start).under StepSound) w) : Invariant w := by
  refine reachableInvariant ⟨?_, ?_⟩ reach
  · rintro w rfl
    exact openedInvariant opened
  · rintro w a after inv ⟨sound, -, rfl⟩
    exact performInvariant inv sound

theorem superblockComplete {start} (opened : Opened start) {w}
    (reach : Reachable ((system start).under StepSound) w) :
    (∀ sb ∈ w.superblock, Complete w sb) ∧
    ∀ a after, ((system start).under StepSound).step w a after →
      after.superblock = w.superblock ∨ ∃ next, after.superblock = some next ∧ Complete after next := by
  refine ⟨(reachedInvariant opened reach).superblock, ?_⟩
  rintro a after step
  have later := (reachedInvariant opened (reachableStep reach step)).superblock
  obtain ⟨-, -, rfl⟩ := step
  rcases performSuperblock with same | ⟨next, -, -, committed⟩
  · exact Or.inl same
  · exact Or.inr ⟨next, committed, later next committed⟩

def freshStart : World where
  nextBlob := 0
  written := []
  failed := []
  locations _ := none
  dirty := []
  tables _ _ := none
  hasResidency := false
  chain := .idle
  superblock := none

theorem freshOpened : Opened freshStart := by
  refine ⟨rfl, ?_, ?_, ?_⟩
  · intro tree blob here
    cases here
  · intro registry tree blob here
    cases here
  · intro sb here
    cases here

-- One tree is saved; everything but perhaps the registry's write succeeds.
def checkpoint (registryOk : Bool) : List Action :=
  [.dirtyTree 0, .serializeTrees, .writeTree true, .treesWritten, .writeRegistry registryOk, .prepareIndex true,
    .writeMetadata true, .writeMetadata true, .writeMetadata true, .writeMetadata true, .writeSuperblock true]

def committed (registryOk : Bool) : World := (checkpoint registryOk).foldl perform freshStart

theorem checkpointComplete : ∃ sb, (committed true).superblock = some sb ∧ Complete (committed true) sb := by
  have run : AllAllowed (fun w a => StepSound w a ∧ Allowed w a) perform freshStart (checkpoint true) := by decide
  exact ⟨_, rfl, (superblockComplete freshOpened (reachableAllowed run)).1 _ rfl⟩

theorem registryMissing : ¬∀ start, Opened start → ∀ w, Reachable (system start) w →
    ∀ sb ∈ w.superblock, Complete w sb := by
  intro all
  have run : AllAllowed (fun w a => True ∧ Allowed w a) perform freshStart (checkpoint false) := by decide
  have complete := all _ freshOpened (committed false) (reachableUnder (reachableAllowed run)) _ rfl
  exact absurd complete.registry (by decide)

end Dewfall.CheckpointWrites
