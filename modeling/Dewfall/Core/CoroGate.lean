import Dewfall.General.Transition
import Mathlib.Data.List.Nodup

/-! The gate that serializes whole spill operations. Coroutines run nested on one loop: a release resumes
the next waiter inside it. Coroutines that are destroyed while they wait are not treated. -/
namespace Dewfall.CoroGate
open General.Transition

variable {Co : Type*}

/-! ## The gate -/

structure Gate (Co : Type*) where
  locked : Bool
  waiters : List Co

def awaitReady (g : Gate Co) : Bool := !g.locked
def awaitSuspend (g : Gate Co) (handle : Co) : Gate Co := { g with waiters := g.waiters ++ [handle] }
def awaitResume (g : Gate Co) : Gate Co := { g with locked := true }

-- The handle that is resumed before the call returns.
def unlock (g : Gate Co) : Gate Co × Option Co :=
  match g.waiters with
  | [] => ({ g with locked := false }, none)
  | handle :: rest => ({ g with waiters := rest }, some handle)

/-! ## Coroutines on the loop -/

-- The innermost running coroutine is first; what was attempted and admitted is history.
structure World (Co : Type*) where
  gate : Gate Co
  stack : List Co
  holders : List Co
  attempts : List Co
  admitted : List Co

def initial : World Co := ⟨⟨false, []⟩, [], [], [], []⟩

inductive Event (Co : Type*) where
  -- The loop, or the innermost coroutine, starts a coroutine or resumes it from elsewhere.
  | enter (c : Co)
  | lock
  | unlock
  -- The innermost coroutine ends, or suspends at something else.
  | leave

def allowed (w : World Co) : Event Co → Prop
  | .enter c => c ∉ w.stack ∧ c ∉ w.gate.waiters
  | .lock => w.stack ≠ []
  | .unlock =>
    match w.stack with
    | [] => False
    | c :: _ => c ∈ w.holders
  | .leave => w.stack ≠ []

def hold (w : World Co) (c : Co) : World Co :=
  { w with gate := awaitResume w.gate, holders := c :: w.holders, admitted := w.admitted ++ [c] }

def lockBy (w : World Co) (c : Co) (below : List Co) : World Co :=
  let w := { w with attempts := w.attempts ++ [c] }
  if awaitReady w.gate then hold w c else { w with gate := awaitSuspend w.gate c, stack := below }

def unlockBy [DecidableEq Co] (w : World Co) (c : Co) : World Co :=
  let w := { w with holders := w.holders.erase c }
  match unlock w.gate with
  | (gate, none) => { w with gate := gate }
  | (gate, some next) => hold { w with gate := gate, stack := next :: w.stack } next

def perform [DecidableEq Co] (w : World Co) : Event Co → World Co
  | .enter c => { w with stack := c :: w.stack }
  | .lock =>
    match w.stack with
    | [] => w
    | c :: below => lockBy w c below
  | .unlock =>
    match w.stack with
    | [] => w
    | c :: _ => unlockBy w c
  | .leave => { w with stack := w.stack.tail }

def system (Co : Type*) [DecidableEq Co] : System (World Co) (Event Co) :=
  .ofFunction initial allowed perform

/-! ## One holder, in the order of arrival -/

structure Sound (w : World Co) : Prop where
  single : w.holders.length ≤ 1
  -- Nobody who came is forgotten or overtaken.
  order : w.attempts = w.admitted ++ w.gate.waiters
  unlocked : w.gate.locked = false ↔ w.holders = [] ∧ w.gate.waiters = []
  held : w.gate.waiters ≠ [] → w.holders ≠ []
  latest : ∀ c ∈ w.holders, w.admitted.getLast? = some c
  -- Only what is suspended is resumed.
  suspended : (w.stack ++ w.gate.waiters).Nodup

theorem initialSound : Sound (initial : World Co) :=
  ⟨Nat.zero_le 1, rfl, ⟨fun _ => ⟨rfl, rfl⟩, fun _ => rfl⟩, fun some_ => absurd rfl some_, fun _ mem => (nomatch mem),
    List.nodup_nil⟩

-- Of the holder and the waiters there is none while the gate is open.
theorem openEmpty {w : World Co} (sound : Sound w) (ready : awaitReady w.gate = true) :
    w.holders = [] ∧ w.gate.waiters = [] := by
  refine sound.unlocked.mp ?_
  unfold awaitReady at ready
  cases locked : w.gate.locked with
  | false => rfl
  | true =>
    rw [locked] at ready
    cases ready

theorem lockSound {w : World Co} {c : Co} {below : List Co} (sound : Sound w) (top : w.stack = c :: below) :
    Sound (lockBy w c below) := by
  obtain ⟨single, order, unlocked, held, latest, suspended⟩ := sound
  unfold lockBy
  dsimp only
  split
  · rename_i ready
    obtain ⟨free, none_⟩ := openEmpty ⟨single, order, unlocked, held, latest, suspended⟩ ready
    refine ⟨?_, ?_, ⟨fun open_ => (nomatch open_), fun both => absurd both.1 (List.cons_ne_nil _ _)⟩,
      fun _ => List.cons_ne_nil _ _, fun d mem => ?_, suspended⟩
    · change (c :: w.holders).length ≤ 1
      rw [free]
      exact Nat.le_refl 1
    · change w.attempts ++ [c] = w.admitted ++ [c] ++ w.gate.waiters
      rw [order, none_, List.append_nil, List.append_nil]
    · change d ∈ c :: w.holders at mem
      rw [free, List.mem_singleton] at mem
      subst mem
      exact List.getLast?_concat
  · rename_i busy
    have taken : w.holders ≠ [] := by
      intro free
      by_cases none_ : w.gate.waiters = []
      · have open_ := unlocked.mpr ⟨free, none_⟩
        unfold awaitReady at busy
        rw [open_] at busy
        exact busy rfl
      · exact held none_ free
    refine ⟨single, ?_, ⟨fun open_ => absurd (unlocked.mp open_).1 taken, fun both => absurd both.1 taken⟩, fun _ => taken,
      latest, ?_⟩
    · change w.attempts ++ [c] = w.admitted ++ (w.gate.waiters ++ [c])
      rw [order, List.append_assoc]
    · change (below ++ (w.gate.waiters ++ [c])).Nodup
      rw [top] at suspended
      have moved : (c :: below ++ w.gate.waiters).Perm (below ++ (w.gate.waiters ++ [c])) := by
        rw [← List.append_assoc]
        exact (List.perm_append_singleton c _).symm
      exact moved.nodup_iff.mp suspended

variable [DecidableEq Co]

theorem holderErased {w : World Co} {c : Co} (sound : Sound w) (owner : c ∈ w.holders) : w.holders.erase c = [] := by
  obtain ⟨d, only⟩ := List.length_eq_one_iff.mp (Nat.le_antisymm sound.single (List.length_pos_of_mem owner))
  rw [only, List.mem_singleton] at owner
  rw [only, owner, List.erase_cons_head]

theorem unlockSound {w : World Co} {c : Co} (sound : Sound w) (owner : c ∈ w.holders) : Sound (unlockBy w c) := by
  have freed := holderErased sound owner
  obtain ⟨single, order, unlocked, held, latest, suspended⟩ := sound
  unfold unlockBy unlock
  dsimp only
  rw [freed]
  cases waiting : w.gate.waiters with
  | nil =>
    rw [waiting] at order suspended
    exact ⟨Nat.zero_le 1, order, ⟨fun _ => ⟨rfl, rfl⟩, fun _ => rfl⟩, fun some_ => absurd rfl some_,
      fun _ mem => (nomatch mem), suspended⟩
  | cons next rest =>
    rw [waiting] at order suspended
    refine ⟨Nat.le_refl 1, ?_, ⟨fun open_ => (nomatch open_), fun both => absurd both.1 (List.cons_ne_nil _ _)⟩,
      fun _ => List.cons_ne_nil _ _, fun d mem => ?_, ?_⟩
    · change w.attempts = w.admitted ++ [next] ++ rest
      rw [order, List.append_assoc]
      rfl
    · obtain rfl := List.mem_singleton.mp mem
      exact List.getLast?_concat
    · change (next :: w.stack ++ rest).Nodup
      have moved : (w.stack ++ next :: rest).Perm (next :: w.stack ++ rest) := List.perm_middle
      exact moved.nodup_iff.mp suspended

theorem performSound {w : World Co} {e : Event Co} (sound : Sound w) (may : allowed w e) : Sound (perform w e) := by
  cases e with
  | enter c =>
    refine ⟨sound.single, sound.order, sound.unlocked, sound.held, sound.latest, ?_⟩
    change (c :: (w.stack ++ w.gate.waiters)).Nodup
    refine List.nodup_cons.mpr ⟨fun mem => ?_, sound.suspended⟩
    exact (List.mem_append.mp mem).elim may.1 may.2
  | lock =>
    unfold perform
    cases top : w.stack with
    | nil => exact absurd top may
    | cons c below => exact lockSound sound top
  | unlock =>
    unfold perform
    unfold allowed at may
    cases top : w.stack with
    | nil =>
      rw [top] at may
      exact may.elim
    | cons c below =>
      rw [top] at may
      exact unlockSound sound may
  | leave =>
    refine ⟨sound.single, sound.order, sound.unlocked, sound.held, sound.latest, ?_⟩
    exact sound.suspended.sublist ((List.tail_sublist w.stack).append_right w.gate.waiters)

-- A release hands the gate to the first waiter before it returns.
def HandsOver (w : World Co) : Prop := ∀ c ∈ w.holders, ∀ next rest, w.gate.waiters = next :: rest →
  (unlockBy w c).holders = [next] ∧ (unlockBy w c).gate.waiters = rest ∧ (unlockBy w c).stack = next :: w.stack

theorem handedOver {w : World Co} (sound : Sound w) : HandsOver w := by
  intro c owner next rest waiting
  unfold unlockBy unlock
  dsimp only
  rw [holderErased sound owner, waiting]
  exact ⟨rfl, rfl, rfl⟩

theorem reachedSound {w : World Co} (reach : Reachable (system Co) w) : Sound w := by
  refine reachableInvariant ⟨?_, ?_⟩ reach
  · rintro s rfl
    exact initialSound
  · rintro s e t sound ⟨may, rfl⟩
    exact performSound sound may

theorem gateSerializes {w : World Co} (reach : Reachable (system Co) w) : Sound w ∧ HandsOver w :=
  ⟨reachedSound reach, handedOver (reachedSound reach)⟩

instance : (w : World Co) → (e : Event Co) → Decidable (allowed w e)
  | w, .enter c => inferInstanceAs (Decidable (c ∉ w.stack ∧ c ∉ w.gate.waiters))
  | w, .lock => inferInstanceAs (Decidable (w.stack ≠ []))
  | w, .leave => inferInstanceAs (Decidable (w.stack ≠ []))
  | ⟨_, [], _, _, _⟩, .unlock => inferInstanceAs (Decidable False)
  | ⟨_, c :: _, holders, _, _⟩, .unlock => inferInstanceAs (Decidable (c ∈ holders))

-- The first release resumes the second coroutine inside it, whose release resumes the third one.
def nested : List (Event Nat) :=
  [.enter 1, .lock, .leave, .enter 2, .lock, .enter 3, .lock, .enter 1, .unlock, .unlock]

theorem nestedSerializes : Sound (nested.foldl perform initial) ∧ HandsOver (nested.foldl perform initial) := by
  refine gateSerializes (reachableUnder (@reachableAllowed _ _ initial allowed (fun _ _ => True) perform nested ?_))
  decide

end Dewfall.CoroGate
