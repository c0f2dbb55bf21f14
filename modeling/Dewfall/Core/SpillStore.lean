import Dewfall.Core.BlobResidency

/-! The spill store between its suspension points. A locator is a segment number and an offset in
that segment. Object names, the journal's byte layout and the spilled-bytes statistic are left
out. -/
namespace Dewfall.SpillStore
open General BlobResidency

structure Store where
  openBuffer : List UInt8
  openSeq : Nat
  nextSeq : Nat
  openJournaled : Bool
  -- Zero where the map has no count.
  liveCounts : Nat → Nat
  deadSegments : List Nat
  undurableSegments : List Nat

def fresh : Store := ⟨[], 0, 1, false, fun _ => 0, [], []⟩

def locator (seq offset : Nat) : Nat := seq * 2 ^ 32 + offset
def spillSegmentOf (remoteId : Nat) : Nat := remoteId / 2 ^ 32
def spillOffsetOf (remoteId : Nat) : Nat := remoteId % 2 ^ 32

theorem segmentLocator {seq offset : Nat} (small : offset < 2 ^ 32) :
    spillSegmentOf (locator seq offset) = seq := by
  unfold spillSegmentOf locator
  omega

theorem offsetLocator {seq offset : Nat} (small : offset < 2 ^ 32) :
    spillOffsetOf (locator seq offset) = offset := by
  unfold spillOffsetOf locator
  omega

/-! ## spill_blob -/

def openSegment (s : Store) : Store :=
  if s.openBuffer = [] then { s with
    openSeq := s.nextSeq
    nextSeq := u32 (s.nextSeq + 1)
    openJournaled := false }
  else s

-- What `write_journal` puts.
def journalRecord (s : Store) : List Nat := s.undurableSegments ++ [s.openSeq]

def appendBlob (s : Store) (data : List UInt8) : Store × Nat :=
  ({ s with
      openBuffer := s.openBuffer ++ data
      openJournaled := true
      liveCounts := Function.update s.liveCounts s.openSeq (s.liveCounts s.openSeq + 1) },
    locator s.openSeq (u32 s.openBuffer.length))

-- The bytes `flush_locked` puts.
def segmentBytes (s : Store) : List UInt8 := s.openBuffer.take (u32 s.openBuffer.length)

def flushed (s : Store) : Store :=
  { s with
    undurableSegments := s.undurableSegments ++ [s.openSeq]
    openBuffer := []
    openJournaled := false }

/-! ## Live counts -/

def restoreNextSegmentSeq (s : Store) (seq : Nat) : Store :=
  { s with nextSeq := if s.nextSeq < seq then seq else s.nextSeq }

def addLive (s : Store) (remoteId : Nat) : Store :=
  let seq := spillSegmentOf remoteId
  restoreNextSegmentSeq
    { s with liveCounts := Function.update s.liveCounts seq (s.liveCounts seq + 1) } (u32 (seq + 1))

-- The last reference to a segment that is not being filled.
def Kills (s : Store) (remoteId : Nat) : Prop :=
  s.liveCounts (spillSegmentOf remoteId) = 1 ∧
    ¬(spillSegmentOf remoteId = s.openSeq ∧ s.openBuffer ≠ [])

instance (s remoteId) : Decidable (Kills s remoteId) := by unfold Kills; infer_instance

def deref (s : Store) (remoteId : Nat) : Store :=
  let seq := spillSegmentOf remoteId
  if s.liveCounts seq = 0 then s
  else
    let counted := { s with liveCounts := Function.update s.liveCounts seq (s.liveCounts seq - 1) }
    if Kills s remoteId then
      { counted with deadSegments := s.deadSegments ++ [seq] }
    else counted

def startSweep (s : Store) : Store := { s with undurableSegments := [] }
def endSweep (s : Store) : Store := { s with deadSegments := [] }

/-! ## spill_bootstrap -/

def replay (r : Residency) : Store :=
  (r.map.entries.filter fun e => e.2.state.spilled).foldl (fun s e => addLive s e.2.remoteId) fresh

-- The part of `gc_orphans` that keeps later segments apart from the journaled ones.
def restoreJournaled (s : Store) (record : List Nat) : Store :=
  record.foldl (fun s seq => restoreNextSegmentSeq s (u32 (seq + 1))) s

/-! ## References -/

def refers (seq : Nat) (e : Entry) : Nat :=
  if e.state.spilled ∧ spillSegmentOf e.remoteId = seq then 1 else 0

theorem derefCounts (s : Store) (remoteId seq : Nat) :
    (deref s remoteId).liveCounts seq =
      s.liveCounts seq - if seq = spillSegmentOf remoteId then 1 else 0 := by
  unfold deref
  dsimp only
  split
  · rename_i zero
    split
    · rename_i same
      rw [same, zero]
    · rfl
  · have counted : Function.update s.liveCounts (spillSegmentOf remoteId)
        (s.liveCounts (spillSegmentOf remoteId) - 1) seq =
        s.liveCounts seq - if seq = spillSegmentOf remoteId then 1 else 0 := by
      by_cases same : seq = spillSegmentOf remoteId
      · rw [if_pos same, same, Function.update_self]
      · rw [if_neg same, Function.update_of_ne same]
        rfl
    split
    · exact counted
    · exact counted

theorem derefFrame (s : Store) (remoteId : Nat) :
    (deref s remoteId).openBuffer = s.openBuffer ∧ (deref s remoteId).openSeq = s.openSeq ∧
      (deref s remoteId).nextSeq = s.nextSeq := by
  unfold deref
  dsimp only
  repeat' split
  all_goals exact ⟨rfl,rfl,rfl⟩

theorem derefDead (s : Store) (remoteId : Nat) : (deref s remoteId).deadSegments =
    s.deadSegments ++ if Kills s remoteId then [spillSegmentOf remoteId] else [] := by
  unfold deref
  dsimp only
  split
  · rename_i zero
    rw [if_neg fun kills => absurd (zero.symm.trans kills.1) (by decide), List.append_nil]
  · split
    · rfl
    · exact (List.append_nil _).symm

theorem replayCounts (entries : List (Nat × Entry)) (s : Store) (seq : Nat) :
    ((entries.filter fun e => e.2.state.spilled).foldl (fun s e => addLive s e.2.remoteId) s).liveCounts
      seq = s.liveCounts seq + (entries.map fun e => refers seq e.2).sum := by
  induction entries generalizing s with
  | nil => rfl
  | cons e rest ih =>
    rw [List.map_cons, List.sum_cons]
    by_cases spilled : e.2.state.spilled = true
    · rw [List.filter_cons_of_pos (by simpa using spilled), List.foldl_cons, ih]
      have added : (addLive s e.2.remoteId).liveCounts seq = s.liveCounts seq + refers seq e.2 := by
        unfold addLive restoreNextSegmentSeq refers
        by_cases same : spillSegmentOf e.2.remoteId = seq
        · simp [same, spilled]
        · simp [same, Function.update_of_ne (Ne.symm same)]
      omega
    · rw [List.filter_cons_of_neg (by simpa using spilled), ih]
      simp [refers, spilled]

theorem restoredLe (s : Store) (seq : Nat) : s.nextSeq ≤ (restoreNextSegmentSeq s seq).nextSeq ∧
    seq ≤ (restoreNextSegmentSeq s seq).nextSeq := by
  unfold restoreNextSegmentSeq
  dsimp only
  split
  · omega
  · omega

end Dewfall.SpillStore
