import Mathlib.Algebra.Group.Nat.Defs
import Mathlib.Data.List.Basic

/-! A spill file of records of one width: buffered appending, and reading through a buffer over whose end a
record may reach. Failing file operations and what deletes the file are left out. -/
namespace Dewfall.SpillFile

abbrev Bytes := List UInt8

def kSpillBufferBytes : Nat := 4 * 2 ^ 20

def capacity (recordSize : Nat) : Nat := max kSpillBufferBytes recordSize

/-! ## Writing -/

structure Writer where
  recordSize : Nat
  file : Bytes
  buffer : Bytes
  records : Nat

def openWrite (recordSize : Nat) : Writer := ⟨recordSize, [], [], 0⟩

def flush (w : Writer) : Writer := { w with file := w.file ++ w.buffer, buffer := [] }

def append (w : Writer) (record : Bytes) : Writer :=
  let w := if capacity w.recordSize < w.buffer.length + w.recordSize then flush w else w
  { w with buffer := w.buffer ++ record, records := w.records + 1 }

/-! ## Reading -/

structure Reader where
  recordSize : Nat
  -- What has not been read from the file.
  rest : Bytes
  buffer : Bytes
  cursor : Nat

def openRead (file : Bytes) (recordSize : Nat) : Reader := ⟨recordSize, file, [], 0⟩

inductive Next where
  | record (bytes : Bytes) (r : Reader)
  | finished
  | endsMidRecord

-- The part of a record that is left in the buffer is carried to its front.
def refill (r : Reader) : Reader :=
  let tail := r.buffer.drop r.cursor
  let room := capacity r.recordSize - tail.length
  { r with rest := r.rest.drop room, buffer := tail ++ r.rest.take room, cursor := 0 }

def take (r : Reader) : Next :=
  .record ((r.buffer.drop r.cursor).take r.recordSize) { r with cursor := r.cursor + r.recordSize }

def next (r : Reader) : Next :=
  if r.buffer.length < r.cursor + r.recordSize then
    let r := refill r
    if r.buffer.length < r.cursor + r.recordSize then
      if r.buffer.length ≠ 0 ∧ r.buffer.length % r.recordSize ≠ 0 then .endsMidRecord else .finished
    else take r
  else take r

/-! ## Records -/

-- All the records appended, whether they are in the file or still in the buffer.
structure Wrote (w : Writer) (records : List Bytes) : Prop where
  bytes : w.file ++ w.buffer = records.flatten
  count : w.records = records.length
  sized : ∀ record ∈ records, record.length = w.recordSize

-- The records that a reader has still to return.
structure Reads (r : Reader) (records : List Bytes) : Prop where
  bytes : r.buffer.drop r.cursor ++ r.rest = records.flatten
  sized : ∀ record ∈ records, record.length = r.recordSize
  positive : 0 < r.recordSize

theorem openWrote (recordSize : Nat) : Wrote (openWrite recordSize) [] := ⟨rfl, rfl, by simp⟩

theorem flushWrote {w : Writer} {records : List Bytes} (wrote : Wrote w records) :
    Wrote (flush w) records ∧ (flush w).file = records.flatten :=
  ⟨⟨(List.append_nil _).trans wrote.bytes, wrote.count, wrote.sized⟩, wrote.bytes⟩

theorem appendWrote {w : Writer} {records : List Bytes} {record : Bytes} (wrote : Wrote w records)
    (sized : record.length = w.recordSize) :
    Wrote (append w record) (records ++ [record]) ∧ (append w record).recordSize = w.recordSize := by
  have bytes : (append w record).file ++ (append w record).buffer = (w.file ++ w.buffer) ++ record := by
    unfold append
    dsimp only
    split
    · rw [flush, List.nil_append]
    · rw [List.append_assoc]
  have same : (append w record).recordSize = w.recordSize ∧ (append w record).records = w.records + 1 := by
    unfold append
    dsimp only
    split <;> exact ⟨rfl, rfl⟩
  refine ⟨⟨?_, ?_, fun other mem => ?_⟩, same.1⟩
  · rw [bytes, wrote.bytes, List.flatten_append, List.flatten_singleton]
  · rw [same.2, wrote.count, List.length_append, List.length_singleton]
  · rw [same.1]
    rcases List.mem_append.mp mem with old | new
    · exact wrote.sized other old
    · rw [List.mem_singleton.mp new, sized]

theorem openReads {records : List Bytes} {recordSize : Nat} (positive : 0 < recordSize)
    (sized : ∀ record ∈ records, record.length = recordSize) : Reads (openRead records.flatten recordSize) records :=
  ⟨rfl, sized, positive⟩

theorem refillReads {r : Reader} {records : List Bytes} (reads : Reads r records) : Reads (refill r) records := by
  refine ⟨?_, reads.sized, reads.positive⟩
  rw [refill]
  dsimp only
  rw [List.drop_zero, List.append_assoc, List.take_append_drop, reads.bytes]

theorem takeReads {r : Reader} {record : Bytes} {records : List Bytes} (reads : Reads r (record :: records))
    (room : r.cursor + r.recordSize ≤ r.buffer.length) :
    ∃ after, take r = .record record after ∧ Reads after records ∧ after.recordSize = r.recordSize := by
  have width := reads.sized record List.mem_cons_self
  have long : r.recordSize ≤ (r.buffer.drop r.cursor).length := by
    rw [List.length_drop]
    omega
  have bytes := reads.bytes
  rw [List.flatten_cons] at bytes
  have front : (r.buffer.drop r.cursor).take r.recordSize = record := by
    have taken := congrArg (List.take r.recordSize) bytes
    rwa [List.take_append_of_le_length long, List.take_append_of_le_length (Nat.le_of_eq width.symm),
      List.take_of_length_le (Nat.le_of_eq width)] at taken
  have back : (r.buffer.drop r.cursor).drop r.recordSize ++ r.rest = records.flatten := by
    have dropped := congrArg (List.drop r.recordSize) bytes
    rwa [List.drop_append_of_le_length long, List.drop_append_of_le_length (Nat.le_of_eq width.symm),
      List.drop_eq_nil_of_le (Nat.le_of_eq width), List.nil_append] at dropped
  refine ⟨{ r with cursor := r.cursor + r.recordSize }, by rw [take, front], ?_, rfl⟩
  refine ⟨?_, fun other mem => reads.sized other (List.mem_cons_of_mem _ mem), reads.positive⟩
  rw [← List.drop_drop, back]

-- The buffer is refilled as long as the file holds a record.
theorem nextRecord {r : Reader} {record : Bytes} {records : List Bytes} (reads : Reads r (record :: records)) :
    ∃ after, next r = .record record after ∧ Reads after records ∧ after.recordSize = r.recordSize := by
  unfold next
  split
  · rename_i short
    have refilled := refillReads reads
    have width := refilled.sized record List.mem_cons_self
    have total := congrArg List.length reads.bytes
    rw [List.flatten_cons, List.length_append, List.length_append, List.length_drop] at total
    have room : (refill r).cursor + (refill r).recordSize ≤ (refill r).buffer.length := by
      have enough : r.recordSize ≤ capacity r.recordSize := Nat.le_max_right ..
      have same : (refill r).recordSize = r.recordSize := rfl
      simp only [refill, List.length_append, List.length_take, List.length_drop]
      omega
    obtain ⟨after, taken, later, size⟩ := takeReads refilled room
    dsimp only
    rw [if_neg (Nat.not_lt.mpr room)]
    exact ⟨after, taken, later, size⟩
  · rename_i long
    exact takeReads reads (Nat.not_lt.mp long)

theorem nextFinished {r : Reader} (reads : Reads r []) : next r = .finished := by
  obtain ⟨buffer, rest⟩ := List.append_eq_nil_iff.mp reads.bytes
  have positive := reads.positive
  have spent := congrArg List.length buffer
  rw [List.length_drop, List.length_nil] at spent
  have bare : (refill r).buffer = [] := by
    rw [refill]
    dsimp only
    rw [buffer, rest, List.take_nil, List.append_nil]
  unfold next
  rw [if_pos (by omega)]
  dsimp only
  rw [bare, if_pos (by rw [List.length_nil]; exact Nat.lt_of_lt_of_le positive (Nat.le_add_left ..))]
  rfl

end Dewfall.SpillFile
