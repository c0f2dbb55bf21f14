import Mathlib.Data.List.Basic
import Mathlib.Data.List.Nodup

/-! Buffers of a fixed length: blocks of one size, passes that rewrite one block after the other in place,
and moves of single entries between two buffers, each with the rule by which it is undone. -/
namespace General.Buffers

variable {α : Type*}

/-! ## Blocks -/

def block (size : Nat) (data : List α) (i : Nat) : List α := (data.drop (i * size)).take size

def setBlock (size : Nat) (data : List α) (i : Nat) (b : List α) : List α :=
  data.take (i * size) ++ b ++ data.drop (i * size + size)

variable {size i j : Nat} {data b : List α}

theorem blockLength (room : (i + 1) * size ≤ data.length) : (block size data i).length = size := by
  rw [Nat.succ_mul] at room
  rw [block, List.length_take, List.length_drop]
  omega

theorem blockAt {k : Nat} (inside : k < size) : (block size data i)[k]? = data[i * size + k]? := by
  rw [block, List.getElem?_take_of_lt inside, List.getElem?_drop]

theorem setBlockLength (room : (i + 1) * size ≤ data.length) (whole : b.length = size) :
    (setBlock size data i b).length = data.length := by
  rw [Nat.succ_mul] at room
  simp only [setBlock, List.length_append, List.length_take, List.length_drop]
  omega

theorem setBlockAt (room : (i + 1) * size ≤ data.length) (whole : b.length = size) (k : Nat) :
    (setBlock size data i b)[k]? =
      if k < i * size then data[k]? else if k < i * size + size then b[k - i * size]? else data[k]? := by
  rw [Nat.succ_mul] at room
  have front : (data.take (i * size)).length = i * size := by
    rw [List.length_take]
    omega
  rw [setBlock, List.append_assoc]
  split
  · rename_i before
    rw [List.getElem?_append_left (by omega), List.getElem?_take_of_lt before]
  · rename_i later
    rw [List.getElem?_append_right (by omega), front]
    split
    · rw [List.getElem?_append_left (by omega)]
    · rw [List.getElem?_append_right (by omega), List.getElem?_drop]
      congr 1
      omega

theorem blockFirst (whole : b.length = size) : block size (b ++ data) 0 = b := by
  rw [block, Nat.zero_mul, List.drop_zero, ← whole, List.take_left]

theorem blockDrop : block size (data.drop size) j = block size data (j + 1) := by
  rw [block, block, List.drop_drop, Nat.succ_mul, Nat.add_comm]

theorem blockNext (whole : b.length = size) : block size (b ++ data) (j + 1) = block size data j := by
  rw [← blockDrop, List.drop_left' whole]

theorem blockReplicate {n : Nat} {x : α} (inside : j < n) :
    block size (List.replicate (size * n) x) j = List.replicate size x := by
  have room := Nat.mul_le_mul_right size (Nat.succ_le_of_lt inside)
  rw [Nat.succ_mul, Nat.mul_comm n] at room
  rw [block, List.drop_replicate, List.take_replicate]
  congr 1
  omega

-- Entries of one size, laid one behind the other.
theorem blockJoined {β : Type*} {entry : β → List α} {l : List β} (whole : ∀ e ∈ l, (entry e).length = size) :
    (l.flatMap entry).length = size * l.length ∧
      ∀ (j : Nat) (e : β), l[j]? = some e → block size (l.flatMap entry) j = entry e := by
  induction l with
  | nil => exact ⟨rfl, fun j e found => nomatch found⟩
  | cons first rest ih =>
    obtain ⟨here, later⟩ := List.forall_mem_cons.mp whole
    obtain ⟨length, blocks⟩ := ih later
    refine ⟨by rw [List.flatMap_cons, List.length_append, here, length, List.length_cons, Nat.mul_succ, Nat.add_comm], ?_⟩
    intro j e found
    cases j with
    | zero =>
      cases found
      exact blockFirst here
    | succ j =>
      rw [← blocks j e found, List.flatMap_cons, blockNext here]

theorem blockSet (room : (i + 1) * size ≤ data.length) (whole : b.length = size) :
    block size (setBlock size data i b) i = b := by
  refine List.ext_getElem? fun k => ?_
  by_cases inside : k < size
  · rw [blockAt inside, setBlockAt room whole, if_neg (by omega), if_pos (by omega), Nat.add_sub_cancel_left]
  · have short := @blockLength _ size i (setBlock size data i b) (by rw [setBlockLength room whole]; exact room)
    rw [List.getElem?_eq_none (by omega), List.getElem?_eq_none (by omega)]

theorem blockOther (other : j ≠ i) (room : (i + 1) * size ≤ data.length) (whole : b.length = size) :
    block size (setBlock size data i b) j = block size data j := by
  have apart : j * size + size ≤ i * size ∨ i * size + size ≤ j * size := by
    rcases Nat.lt_or_gt_of_ne other with less | more
    · left
      rw [← Nat.succ_mul]
      exact Nat.mul_le_mul_right size less
    · right
      rw [← Nat.succ_mul]
      exact Nat.mul_le_mul_right size more
  refine List.ext_getElem? fun k => ?_
  by_cases inside : k < size
  · rw [blockAt inside, blockAt inside, setBlockAt room whole]
    split
    · rfl
    · rw [if_neg (by omega)]
  · rw [List.getElem?_eq_none (by rw [block, List.length_take]; omega),
      List.getElem?_eq_none (by rw [block, List.length_take]; omega)]

theorem setSet {c : List α} (room : (i + 1) * size ≤ data.length) (whole : b.length = size) (also_ : c.length = size) :
    setBlock size (setBlock size data i b) i c = setBlock size data i c := by
  refine List.ext_getElem? fun k => ?_
  rw [setBlockAt (by rw [setBlockLength room whole]; exact room) also_, setBlockAt room whole, setBlockAt room also_]
  split
  · rfl
  · split <;> rfl

theorem setOwn (room : (i + 1) * size ≤ data.length) : setBlock size data i (block size data i) = data := by
  refine List.ext_getElem? fun k => ?_
  rw [setBlockAt room (blockLength room)]
  split
  · rfl
  · split
    · rw [blockAt (by omega)]
      congr 1
      omega
    · rfl

theorem setComm {c : List α} (other : i ≠ j) (room : (i + 1) * size ≤ data.length) (place : (j + 1) * size ≤ data.length)
    (whole : b.length = size) (also_ : c.length = size) :
    setBlock size (setBlock size data i b) j c = setBlock size (setBlock size data j c) i b := by
  have apart : i * size + size ≤ j * size ∨ j * size + size ≤ i * size := by
    rcases Nat.lt_or_gt_of_ne other with less | more
    · left
      rw [← Nat.succ_mul]
      exact Nat.mul_le_mul_right size less
    · right
      rw [← Nat.succ_mul]
      exact Nat.mul_le_mul_right size more
  refine List.ext_getElem? fun k => ?_
  rw [setBlockAt (by rw [setBlockLength room whole]; exact place) also_, setBlockAt room whole,
    setBlockAt (by rw [setBlockLength place also_]; exact room) whole, setBlockAt place also_]
  split <;> split <;> (try split) <;> (try split) <;> first | rfl | omega

/-! ## Passes over the blocks -/

-- Every block by itself.
def mapStep (size : Nat) (f : List α → List α) (data : List α) (i : Nat) : List α :=
  setBlock size data i (f (block size data i))

-- Every block from itself and the one before it.
def nextStep (size : Nat) (op : List α → List α → List α) (data : List α) (i : Nat) : List α :=
  setBlock size data (i + 1) (op (block size data (i + 1)) (block size data i))

variable {f g : List α → List α} {op inverse : List α → List α → List α} {m : Nat}

theorem mapStepLength (keeps : ∀ b, b.length = size → (f b).length = size) (room : (i + 1) * size ≤ data.length) :
    (mapStep size f data i).length = data.length := setBlockLength room (keeps _ (blockLength room))

theorem mappedLength (keeps : ∀ b, b.length = size → (f b).length = size) (room : m * size ≤ data.length) :
    ((List.range m).foldl (mapStep size f) data).length = data.length := by
  induction m with
  | zero => rfl
  | succ m ih =>
    have before := ih (Nat.le_trans (Nat.mul_le_mul_right size (Nat.le_succ m)) room)
    rw [List.range_succ, List.foldl_append]
    exact (mapStepLength keeps (before.symm ▸ room)).trans before

theorem mapStepComm (keeps : ∀ b, b.length = size → (f b).length = size) (also_ : ∀ b, b.length = size → (g b).length = size)
    (other : i ≠ j) (room : (i + 1) * size ≤ data.length) (place : (j + 1) * size ≤ data.length) :
    mapStep size g (mapStep size f data i) j = mapStep size f (mapStep size g data j) i := by
  have first := keeps _ (blockLength room)
  have second := also_ _ (blockLength place)
  unfold mapStep
  rw [blockOther (Ne.symm other) room first, blockOther other place second, setComm other room place first second]

theorem mappedComm (keeps : ∀ b, b.length = size → (f b).length = size) (also_ : ∀ b, b.length = size → (g b).length = size)
    (later : m ≤ i) (room : (i + 1) * size ≤ data.length) :
    (List.range m).foldl (mapStep size g) (mapStep size f data i) =
      mapStep size f ((List.range m).foldl (mapStep size g) data) i := by
  induction m with
  | zero => rfl
  | succ m ih =>
    have place : (m + 1) * size ≤ data.length :=
      Nat.le_trans (Nat.mul_le_mul_right size (by omega)) room
    have before : ((List.range m).foldl (mapStep size g) data).length = data.length :=
      mappedLength also_ (Nat.le_trans (Nat.mul_le_mul_right size (Nat.le_succ m)) place)
    rw [List.range_succ, List.foldl_append, List.foldl_append, ih (by omega)]
    exact mapStepComm keeps also_ (by omega) (before.symm ▸ room) (before.symm ▸ place)

theorem mapUndone (keeps : ∀ b, b.length = size → (f b).length = size) (also_ : ∀ b, b.length = size → (g b).length = size)
    (back : ∀ b, b.length = size → g (f b) = b) (room : m * size ≤ data.length) :
    (List.range m).foldl (mapStep size g) ((List.range m).foldl (mapStep size f) data) = data := by
  induction m with
  | zero => rfl
  | succ m ih =>
    have less : m * size ≤ data.length := Nat.le_trans (Nat.mul_le_mul_right size (Nat.le_succ m)) room
    have before := mappedLength keeps less
    have whole := blockLength room
    rw [List.range_succ, List.foldl_append, List.foldl_append]
    calc mapStep size g ((List.range m).foldl (mapStep size g)
          (mapStep size f ((List.range m).foldl (mapStep size f) data) m)) m
      _ = mapStep size g (mapStep size f data m) m := by
        rw [mappedComm keeps also_ (Nat.le_refl m) (before.symm ▸ room), ih less]
      _ = data := by
        unfold mapStep
        rw [blockSet room (keeps _ whole), back _ whole, setSet room (keeps _ whole) whole, setOwn room]

theorem nextStepLength (keeps : ∀ a b, a.length = size → b.length = size → (op a b).length = size)
    (room : (i + 2) * size ≤ data.length) : (nextStep size op data i).length = data.length :=
  setBlockLength room (keeps _ _ (blockLength room)
    (blockLength (Nat.le_trans (Nat.mul_le_mul_right size (by omega)) room)))

theorem passLength (keeps : ∀ a b, a.length = size → b.length = size → (op a b).length = size)
    (room : (m + 1) * size ≤ data.length) : ((List.range m).reverse.foldl (nextStep size op) data).length = data.length := by
  induction m generalizing data with
  | zero => rfl
  | succ m ih =>
    have step := nextStepLength keeps room
    rw [List.range_succ, List.reverse_append, List.foldl_append]
    refine (ih ?_).trans step
    change (m + 1) * size ≤ (nextStep size op data m).length
    rw [step]
    exact Nat.le_trans (Nat.mul_le_mul_right size (by omega)) room

theorem forwardLength (keeps : ∀ a b, a.length = size → b.length = size → (op a b).length = size)
    (room : (m + 1) * size ≤ data.length) : ((List.range m).foldl (nextStep size op) data).length = data.length := by
  induction m with
  | zero => rfl
  | succ m ih =>
    have before := ih (Nat.le_trans (Nat.mul_le_mul_right size (Nat.le_succ (m + 1))) room)
    rw [List.range_succ, List.foldl_append]
    exact (nextStepLength keeps (before.symm ▸ room)).trans before

theorem nextUndone (keeps : ∀ a b, a.length = size → b.length = size → (op a b).length = size)
    (back : ∀ a b, a.length = size → b.length = size → inverse (op a b) b = a) (room : (i + 2) * size ≤ data.length) :
    nextStep size inverse (nextStep size op data i) i = data := by
  have prev := blockLength (i := i) (Nat.le_trans (Nat.mul_le_mul_right size (by omega)) room)
  have curr := blockLength (i := i + 1) room
  have whole := keeps _ _ curr prev
  unfold nextStep
  rw [blockSet room whole, blockOther (by omega) room whole, back _ _ curr prev, setSet room whole curr, setOwn room]

-- Back to front a block is taken against the untouched one before it; front to back that one is restored first.
theorem passUndone (keeps : ∀ a b, a.length = size → b.length = size → (op a b).length = size)
    (back : ∀ a b, a.length = size → b.length = size → inverse (op a b) b = a) (room : (m + 1) * size ≤ data.length) :
    (List.range m).foldl (nextStep size inverse) ((List.range m).reverse.foldl (nextStep size op) data) = data := by
  induction m generalizing data with
  | zero => rfl
  | succ m ih =>
    have after : (m + 1) * size ≤ (nextStep size op data m).length := by
      rw [nextStepLength keeps room]
      exact Nat.le_trans (Nat.mul_le_mul_right size (by omega)) room
    rw [List.range_succ, List.reverse_append, List.foldl_append]
    refine (congrArg (fun d => nextStep size inverse d m) (ih after)).trans ?_
    exact nextUndone keeps back room

/-! ## Moves of single entries -/

def move (fallback : α) (src dst : List α) (m : Nat × Nat) : List α := dst.set m.1 (src.getD m.2 fallback)

variable {fallback : α} {src dst : List α} {moves : List (Nat × Nat)} {t s n : Nat}

theorem movedLength : (moves.foldl (move fallback src) dst).length = dst.length := by
  induction moves generalizing dst with
  | nil => rfl
  | cons m rest ih => exact ih.trans (List.length_set ..)

theorem movedKept {a : α} (same : ∀ m ∈ moves, m.1 = t → src.getD m.2 fallback = a) (already : dst[t]? = some a) :
    (moves.foldl (move fallback src) dst)[t]? = some a := by
  induction moves generalizing dst with
  | nil => exact already
  | cons m rest ih =>
    refine ih (fun other member => same other (List.mem_cons_of_mem m member)) ?_
    have inside := (List.getElem?_eq_some_iff.mp already).1
    unfold move
    by_cases here : m.1 = t
    · rw [here, List.getElem?_set_self inside, same m (List.mem_cons_self ..) here]
    · rw [List.getElem?_set_ne here, already]

theorem movedAt (single : ∀ m ∈ moves, m.1 = t → m.2 = s) (member : (t, s) ∈ moves) (inside : t < dst.length) :
    (moves.foldl (move fallback src) dst)[t]? = some (src.getD s fallback) := by
  obtain ⟨before, after, rfl⟩ := List.append_of_mem member
  rw [List.foldl_append, List.foldl_cons]
  refine movedKept (fun m later here => ?_) ?_
  · rw [single m (List.mem_append_right _ (List.mem_cons_of_mem _ later)) here]
  · exact List.getElem?_set_self (movedLength.symm ▸ inside)

theorem movesUndone {back_ : List α} (forth : ∀ m ∈ moves, ∀ k ∈ moves, m.1 = k.1 → m.2 = k.2)
    (back : ∀ m ∈ moves, ∀ k ∈ moves, m.2 = k.2 → m.1 = k.1) (inside : ∀ m ∈ moves, m.1 < n)
    (covered : ∀ j < n, ∃ m ∈ moves, m.2 = j) (whole : src.length = n) (room : dst.length = n) (place : back_.length = n) :
    (moves.map Prod.swap).foldl (move fallback (moves.foldl (move fallback src) dst)) back_ = src := by
  refine List.ext_getElem? fun j => ?_
  by_cases low : j < n
  · obtain ⟨m, member, rfl⟩ := covered j low
    have moved := @movedAt _ fallback src dst moves m.1 m.2 (fun k mem same => forth k mem m member same) member
      (room.symm ▸ inside m member)
    have returned := @movedAt _ fallback (moves.foldl (move fallback src) dst) back_ (moves.map Prod.swap) m.2 m.1
      (fun k mem same => by
        obtain ⟨k', mem', rfl⟩ := List.mem_map.mp mem
        exact back k' mem' m member same)
      (List.mem_map.mpr ⟨m, member, rfl⟩) (place.symm ▸ low)
    rw [returned, List.getD_eq_getElem?_getD, moved, List.getD_eq_getElem?_getD,
      List.getElem?_eq_getElem (whole.symm ▸ low)]
    rfl
  · rw [List.getElem?_eq_none (by rw [movedLength]; omega), List.getElem?_eq_none (by omega)]

end General.Buffers
