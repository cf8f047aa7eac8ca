import Mathlib.Logic.Function.Basic
import FdPicotcp.Stack.Socket

/-! The wrapper's descriptor entry and the callback that wakes its readers (`fd_picotcp.c`).

    An `fd_elem` mirrors the readiness of one socket by hand: a pipe that `poll()` and `select()`
    watch, the number of characters written to it, and the two semaphores `accept()` and `read()`
    wait on. The stack thread fills them in `handle_wakeup`, which is the list of operations still
    to do here. `unlock_sem` is two operations, `sem_getvalue` and, if the value it saw was 0,
    `sem_post`. -/

namespace FdPicotcp.Elem
open Socket

/-- `accept_sem` or `read_sem`. -/
inductive Sem where | accept | read
  deriving DecidableEq, Repr

/-- One operation of the stack thread. -/
inductive Op where
  /-- `get_fd_elem_from_socket` at the head of `handle_wakeup` -/
  | lookup (ev : BitVec 16)
  | unlockSem (c : Sem)
  | writePipe
  | incCount
  deriving DecidableEq

/-- An `fd_elem` with its pipe, whether `fd_table` holds it, and the operations the stack thread has
    to do on it; `half` is an `unlock_sem` after its `sem_getvalue`. -/
structure Entry where
  fdWriteCount : ℤ
  sem : Sem → ℕ
  pipe : ℕ
  inTable : Bool
  half : Option (Sem × ℕ)
  todo : List Op

/-- The default capacity of a pipe. -/
def pipeCapacity : ℕ := 65536

/-- `fd_elem_create`: no character written, both semaphores 0. -/
def fdElemCreate : Entry := ⟨0, fun _ => 0, 0, true, none, []⟩

/-- The body of `handle_wakeup` after the lookup. -/
def handleWakeup (found : Bool) (ev : BitVec 16) : List Op :=
  if found then
    (if ev &&& picoSockEvConn ≠ 0 then [.unlockSem .accept] else []) ++
      (if ev &&& picoSockEvRd ≠ 0 then [.writePipe, .incCount, .unlockSem .read] else [])
  else []

/-- The second half of `unlock_sem`: post unless the value seen was positive. -/
def postUnless (sem : Sem → ℕ) (c : Sem) (v : ℕ) : Sem → ℕ :=
  if 0 < v then sem else Function.update sem c (sem c + 1)

/-- The next operation of the stack thread; a write to a full pipe blocks. -/
def stackStep (e : Entry) : Option Entry :=
  match e.half, e.todo with
  | some (c, v), _ => some { e with half := none, sem := postUnless e.sem c v }
  | none, [] => none
  | none, .lookup ev :: ops => some { e with todo := handleWakeup e.inTable ev ++ ops }
  | none, .unlockSem c :: ops => some { e with half := some (c, e.sem c), todo := ops }
  | none, .writePipe :: ops =>
    if e.pipe < pipeCapacity then some { e with pipe := e.pipe + 1, todo := ops } else none
  | none, .incCount :: ops => some { e with fdWriteCount := e.fdWriteCount + 1, todo := ops }

/-- What a step of the stack thread does. -/
inductive StackMove (e : Entry) : Entry → Prop
  | post (c : Sem) (v : ℕ) (hhalf : e.half = some (c, v)) :
    StackMove e { e with half := none, sem := postUnless e.sem c v }
  | lookup (ev : BitVec 16) (ops : List Op) (hhalf : e.half = none)
      (htodo : e.todo = .lookup ev :: ops) :
    StackMove e { e with todo := handleWakeup e.inTable ev ++ ops }
  | unlockSem (c : Sem) (ops : List Op) (hhalf : e.half = none)
      (htodo : e.todo = .unlockSem c :: ops) :
    StackMove e { e with half := some (c, e.sem c), todo := ops }
  | writePipe (ops : List Op) (hhalf : e.half = none) (htodo : e.todo = .writePipe :: ops)
      (hroom : e.pipe < pipeCapacity) : StackMove e { e with pipe := e.pipe + 1, todo := ops }
  | incCount (ops : List Op) (hhalf : e.half = none) (htodo : e.todo = .incCount :: ops) :
    StackMove e { e with fdWriteCount := e.fdWriteCount + 1, todo := ops }

theorem stackStep_move {e e' : Entry} (hs : stackStep e = some e') : StackMove e e' := by
  rw [stackStep.eq_def] at hs
  split at hs
  case h_1 _ c v hhalf =>
    cases hs
    exact .post c v hhalf
  case h_2 => cases hs
  case h_3 ev ops hhalf htodo =>
    cases hs
    exact .lookup ev ops hhalf htodo
  case h_4 c ops hhalf htodo =>
    cases hs
    exact .unlockSem c ops hhalf htodo
  case h_5 ops hhalf htodo =>
    obtain ⟨hroom, he⟩ := Option.ite_none_right_eq_some.mp hs
    cases he
    exact .writePipe ops hhalf htodo hroom
  case h_6 ops hhalf htodo =>
    cases hs
    exact .incCount ops hhalf htodo

/-- Delivering an event leaves the entry in the table or out of it. -/
theorem stackStep_inTable {e e' : Entry} (hs : stackStep e = some e') : e'.inTable = e.inTable := by
  cases stackStep_move hs <;> rfl

/-- The stack thread is not inside `handle_wakeup` and has no notification left to deliver. -/
def Idle (e : Entry) : Prop := e.half = none ∧ e.todo = []

instance (e : Entry) : Decidable (Idle e) := inferInstanceAs (Decidable (_ ∧ _))

/-- The event that posts a semaphore. -/
def eventOf : Sem → BitVec 16
  | .accept => picoSockEvConn
  | .read => picoSockEvRd

/-- The operation leads to an `unlock_sem` of `c`. -/
def Op.posts (c : Sem) : Op → Prop
  | .lookup ev => ev &&& eventOf c ≠ 0
  | .unlockSem c' => c' = c
  | _ => False

instance (c : Sem) : DecidablePred (Op.posts c)
  | .lookup _ => inferInstanceAs (Decidable (_ ≠ _))
  | .unlockSem _ => inferInstanceAs (Decidable (_ = _))
  | .writePipe => inferInstanceAs (Decidable False)
  | .incCount => inferInstanceAs (Decidable False)

/-- The stack thread has still to look at the semaphore. -/
def Owes (c : Sem) (ops : List Op) : Prop := ∃ op ∈ ops, op.posts c

instance (c : Sem) (ops : List Op) : Decidable (Owes c ops) :=
  inferInstanceAs (Decidable (∃ op ∈ ops, op.posts c))

@[simp] theorem owes_nil (c : Sem) : ¬ Owes c [] := by simp [Owes]

@[simp] theorem owes_cons (c : Sem) (op : Op) (ops : List Op) :
    Owes c (op :: ops) ↔ op.posts c ∨ Owes c ops := by simp [Owes]

@[simp] theorem owes_append (c : Sem) (ops ops' : List Op) :
    Owes c (ops ++ ops') ↔ Owes c ops ∨ Owes c ops' := by simp [Owes, or_and_right, exists_or]

/-- `handle_wakeup` unlocks exactly the semaphores whose event it is called with. -/
theorem owes_handleWakeup (c : Sem) (ev : BitVec 16) :
    Owes c (handleWakeup true ev) ↔ ev &&& eventOf c ≠ 0 := by
  rw [handleWakeup, if_pos rfl, owes_append]
  cases c <;> split_ifs <;> simp_all [Op.posts, eventOf]

theorem owes_lookup (c : Sem) (evs : List (BitVec 16)) :
    Owes c (evs.map .lookup) ↔ announces (eventOf c) evs := by
  simp [Owes, announces, Op.posts]

theorem postUnless_self (sem : Sem → ℕ) (c : Sem) (v : ℕ) :
    postUnless sem c v c = if 0 < v then sem c else sem c + 1 := by
  rw [postUnless]
  split
  · rfl
  · exact Function.update_self ..

theorem postUnless_of_ne {c c' : Sem} (h : c' ≠ c) (sem : Sem → ℕ) (v : ℕ) :
    postUnless sem c v c' = sem c' := by
  rw [postUnless]
  split
  · rfl
  · exact Function.update_of_ne h ..

end FdPicotcp.Elem
