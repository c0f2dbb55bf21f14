import Mathlib.Logic.Basic

/-! Computations that report an error or run into a fault, such as an access outside of a buffer. `Yields` is the
weakest condition under which there is no fault and the result is as asked; an error asks for nothing. -/
namespace General.Faults

inductive Stop (ε : Type) where
  | fault
  | error (e : ε)
  deriving DecidableEq, Repr

abbrev Checked (ε α : Type) := Except (Stop ε) α

variable {ε α β : Type}

def Yields (x : Checked ε α) (post : α → Prop) : Prop :=
  match x with
  | .ok a => post a
  | .error (.error _) => True
  | .error .fault => False

def within (p : Prop) [Decidable p] : Checked ε Unit := if p then .ok () else .error .fault

def readAt (data : List α) (position count : Nat) : Checked ε (List α) :=
  if position + count ≤ data.length then .ok ((data.drop position).take count) else .error .fault

def writeAt (data : List α) (position : Nat) (b : List α) : Checked ε (List α) :=
  if position + b.length ≤ data.length then .ok (data.take position ++ b ++ data.drop (position + b.length)) else .error .fault

-- A size that would wrap is a fault.
def difference (a b : Nat) : Checked ε Nat := if b ≤ a then .ok (a - b) else .error .fault

theorem yieldsPure {a : α} {post : α → Prop} : Yields (pure a : Checked ε α) post ↔ post a := Iff.rfl

theorem yieldsBind {x : Checked ε α} {f : α → Checked ε β} {post : β → Prop} :
    Yields (x >>= f) post ↔ Yields x fun a => Yields (f a) post := by
  cases x with
  | ok a => rfl
  | error s => cases s <;> rfl

theorem yieldsIte {p : Prop} [Decidable p] {x y : Checked ε α} {post : α → Prop} :
    Yields (if p then x else y) post ↔ (p → Yields x post) ∧ (¬p → Yields y post) := by
  split
  · rename_i holds
    exact ⟨fun h => ⟨fun _ => h, fun not => absurd holds not⟩, fun h => h.1 holds⟩
  · rename_i not
    exact ⟨fun h => ⟨fun holds => absurd holds not, fun _ => h⟩, fun h => h.2 not⟩

theorem yieldsWithin {p : Prop} [Decidable p] {post : Unit → Prop} :
    Yields (within p : Checked ε Unit) post ↔ p ∧ post () := by
  unfold within
  split
  · rename_i holds
    exact ⟨fun h => ⟨holds, h⟩, And.right⟩
  · rename_i not
    exact ⟨fun h => h.elim, fun h => absurd h.1 not⟩

theorem yieldsReadAt {data : List α} {position count : Nat} {post : List α → Prop} :
    Yields (readAt data position count : Checked ε (List α)) post ↔
      position + count ≤ data.length ∧ post ((data.drop position).take count) := by
  unfold readAt
  split
  · rename_i holds
    exact ⟨fun h => ⟨holds, h⟩, And.right⟩
  · rename_i not
    exact ⟨fun h => h.elim, fun h => absurd h.1 not⟩

theorem yieldsWriteAt {data b : List α} {position : Nat} {post : List α → Prop} :
    Yields (writeAt data position b : Checked ε (List α)) post ↔
      position + b.length ≤ data.length ∧ post (data.take position ++ b ++ data.drop (position + b.length)) := by
  unfold writeAt
  split
  · rename_i holds
    exact ⟨fun h => ⟨holds, h⟩, And.right⟩
  · rename_i not
    exact ⟨fun h => h.elim, fun h => absurd h.1 not⟩

theorem writtenLength {data b : List α} {position : Nat} (room : position + b.length ≤ data.length) :
    (data.take position ++ b ++ data.drop (position + b.length)).length = data.length := by
  simp only [List.length_append, List.length_take, List.length_drop]
  omega

theorem yieldsDifference {a b : Nat} {post : Nat → Prop} :
    Yields (difference a b : Checked ε Nat) post ↔ b ≤ a ∧ post (a - b) := by
  unfold difference
  split
  · rename_i holds
    exact ⟨fun h => ⟨holds, h⟩, And.right⟩
  · rename_i not
    exact ⟨fun h => h.elim, fun h => absurd h.1 not⟩

end General.Faults
