import Mathlib.Algebra.BigOperators.Group.Finset.Piecewise
import FdPicotcp.Lib.Token
import FdPicotcp.Wrapper.Elem

/-! One descriptor shared by the stack thread and `n` application threads (`fd_functions.c`).

    `fd_pico_socket_read` and `fd_pico_socket_accept` wait on a semaphore before they touch the
    socket; every semaphore call, pipe call and socket call is one step, and the schedule decides
    whose step is next. Each semaphore follows the token protocol: the stack thread supplies, a
    thread past its `sem_wait` has acquired, and its `pico_socket_read` or `pico_socket_accept` is
    the take. `step_label` is that simulation. -/

namespace FdPicotcp.Descriptor
open CInt Socket Elem

/-- Where a thread is in `fd_pico_socket_read(fd, buffer, len)` or `fd_pico_socket_accept`. -/
inductive ThreadPc where
  | away
  /-- before `waiton_sem(l->read_sem)` -/
  | readWait (buf : Buffer) (len : ℤ)
  /-- before `while (l->fd_write_count > 0)` -/
  | drainTest (buf : Buffer) (len : ℤ)
  | drainRead (buf : Buffer) (len : ℤ)
  /-- before `l->fd_write_count -= n` -/
  | drainCount (buf : Buffer) (len : ℤ) (n : ℕ)
  | sockRead (buf : Buffer) (len : ℤ)
  /-- before and inside `unlock_sem(l->read_sem)`, with the value to return -/
  | readUnlock (ret : ℤ)
  | readPost (ret : ℤ) (v : ℕ)
  | readDone (ret : ℤ)
  /-- before `waiton_sem(l->accept_sem)` -/
  | acceptWait
  | sockAccept
  | acceptDone (c : Option Child)
  deriving DecidableEq

structure Desc (n : ℕ) extends Entry where
  socket : PicoSocket
  thread : Fin n → ThreadPc

/-- Who moves. The stack thread takes a frame or a timer only between two callbacks. -/
inductive Act (n : ℕ) where
  | event (e : Event)
  | stack
  | read (p : Fin n) (buf : Buffer) (len : ℕ)
  | accept (p : Fin n)
  | thread (p : Fin n)
  /-- `fd_pico_socket_close` by a thread that is not in a call on the descriptor -/
  | close (outEmpty : Bool)
  deriving DecidableEq

variable {n : ℕ}

def Desc.goto (d : Desc n) (p : Fin n) (pc : ThreadPc) : Desc n :=
  { d with thread := Function.update d.thread p pc }

/-- The next step of a thread inside a call. -/
def threadStep (d : Desc n) (p : Fin n) : Option (Desc n) :=
  match d.thread p with
  | .away => none
  | .readWait buf len =>
    if 0 < d.sem .read then
      some { d.goto p (.drainTest buf len) with
        sem := Function.update d.sem .read (d.sem .read - 1) }
    else none
  | .drainTest buf len =>
    some (d.goto p (if 0 < d.fdWriteCount then .drainRead buf len else .sockRead buf len))
  -- read(fd[0], b, 10); an empty pipe blocks
  | .drainRead buf len =>
    if 0 < d.pipe then
      some { d.goto p (.drainCount buf len (min 10 d.pipe)) with pipe := d.pipe - min 10 d.pipe }
    else none
  | .drainCount buf len k =>
    some { d.goto p (.drainTest buf len) with fdWriteCount := d.fdWriteCount - k }
  | .sockRead buf len =>
    let (s, ret, _) := picoSocketRead d.socket buf len
    some { d.goto p (if len = ret then .readUnlock ret else .readDone ret) with socket := s }
  | .readUnlock ret => some (d.goto p (.readPost ret (d.sem .read)))
  | .readPost ret v =>
    some { d.goto p (.readDone ret) with sem := postUnless d.sem .read v }
  | .readDone _ => some (d.goto p .away)
  | .acceptWait =>
    if 0 < d.sem .accept then
      some { d.goto p .sockAccept with
        sem := Function.update d.sem .accept (d.sem .accept - 1) }
    else none
  | .sockAccept =>
    let (s, c) := picoSocketAccept d.socket
    some { d.goto p (.acceptDone c) with socket := s }
  | .acceptDone _ => some (d.goto p .away)

def step (d : Desc n) : Act n → Option (Desc n)
  | .event e =>
    if Idle d.toEntry then
      (event d.socket e).map fun (s, evs) => { d with socket := s, todo := evs.map .lookup }
    else none
  | .stack => (stackStep d.toEntry).map fun e => { d with toEntry := e }
  -- `fd_pico_socket_read` takes an `int`
  | .read p buf len =>
    if d.inTable ∧ d.thread p = .away then some (d.goto p (.readWait buf (toInt32 len))) else none
  | .accept p => if d.inTable ∧ d.thread p = .away then some (d.goto p .acceptWait) else none
  | .thread p => threadStep d p
  | .close outEmpty =>
    if d.inTable then
      some { d with socket := picoSocketClose d.socket outEmpty, inTable := false }
    else none

/-- What a step of a thread inside a call does, from where the thread is. -/
inductive ThreadMove (d : Desc n) (p : Fin n) : ThreadPc → Desc n → Prop
  | readWait (buf : Buffer) (len : ℤ) (hpos : 0 < d.sem .read) : ThreadMove d p (.readWait buf len)
      { d.goto p (.drainTest buf len) with
        sem := Function.update d.sem .read (d.sem .read - 1) }
  | drainTest (buf : Buffer) (len : ℤ) : ThreadMove d p (.drainTest buf len)
      (d.goto p (if 0 < d.fdWriteCount then .drainRead buf len else .sockRead buf len))
  | drainRead (buf : Buffer) (len : ℤ) (hpos : 0 < d.pipe) : ThreadMove d p (.drainRead buf len)
      { d.goto p (.drainCount buf len (min 10 d.pipe)) with pipe := d.pipe - min 10 d.pipe }
  | drainCount (buf : Buffer) (len : ℤ) (k : ℕ) : ThreadMove d p (.drainCount buf len k)
      { d.goto p (.drainTest buf len) with fdWriteCount := d.fdWriteCount - k }
  | sockRead (buf : Buffer) (len : ℤ) : ThreadMove d p (.sockRead buf len)
      { d.goto p (if len = (picoSocketRead d.socket buf len).2.1
          then .readUnlock (picoSocketRead d.socket buf len).2.1
          else .readDone (picoSocketRead d.socket buf len).2.1) with
        socket := (picoSocketRead d.socket buf len).1 }
  | readUnlock (ret : ℤ) : ThreadMove d p (.readUnlock ret) (d.goto p (.readPost ret (d.sem .read)))
  | readPost (ret : ℤ) (v : ℕ) : ThreadMove d p (.readPost ret v)
      { d.goto p (.readDone ret) with sem := postUnless d.sem .read v }
  | readDone (ret : ℤ) : ThreadMove d p (.readDone ret) (d.goto p .away)
  | acceptWait (hpos : 0 < d.sem .accept) : ThreadMove d p .acceptWait
      { d.goto p .sockAccept with
        sem := Function.update d.sem .accept (d.sem .accept - 1) }
  | sockAccept : ThreadMove d p .sockAccept
      { d.goto p (.acceptDone (picoSocketAccept d.socket).2) with
        socket := (picoSocketAccept d.socket).1 }
  | acceptDone (c : Option Child) : ThreadMove d p (.acceptDone c) (d.goto p .away)

theorem threadStep_move {d d' : Desc n} {p : Fin n} (hs : threadStep d p = some d') :
    ∃ pc, d.thread p = pc ∧ ThreadMove d p pc d' := by
  refine ⟨_, rfl, ?_⟩
  rw [threadStep] at hs
  cases hpc : d.thread p with
  | away => simp [hpc] at hs
  | readWait buf len =>
    simp only [hpc, Option.ite_none_right_eq_some, Option.some.injEq] at hs
    obtain ⟨hpos, rfl⟩ := hs
    exact .readWait buf len hpos
  | drainRead buf len =>
    simp only [hpc, Option.ite_none_right_eq_some, Option.some.injEq] at hs
    obtain ⟨hpos, rfl⟩ := hs
    exact .drainRead buf len hpos
  | acceptWait =>
    simp only [hpc, Option.ite_none_right_eq_some, Option.some.injEq] at hs
    obtain ⟨hpos, rfl⟩ := hs
    exact .acceptWait hpos
  | drainTest buf len | drainCount buf len k | sockRead buf len | readUnlock ret | readPost ret v
  | readDone ret | sockAccept | acceptDone c =>
    simp only [hpc, Option.some.injEq] at hs
    subst hs
    constructor

/-- What a step does. -/
inductive Move (d : Desc n) : Act n → Desc n → Prop
  | event (e : Event) (s : PicoSocket) (evs : List (BitVec 16)) (hidle : Idle d.toEntry)
      (he : event d.socket e = some (s, evs)) :
    Move d (.event e) { d with socket := s, todo := evs.map .lookup }
  | stack (e : Entry) (he : stackStep d.toEntry = some e) : Move d .stack { d with toEntry := e }
  | read (p : Fin n) (buf : Buffer) (len : ℕ) (hin : d.inTable) (haway : d.thread p = .away) :
    Move d (.read p buf len) (d.goto p (.readWait buf (toInt32 len)))
  | accept (p : Fin n) (hin : d.inTable) (haway : d.thread p = .away) :
    Move d (.accept p) (d.goto p .acceptWait)
  | thread (p : Fin n) (d' : Desc n) (hs : threadStep d p = some d') : Move d (.thread p) d'
  | close (outEmpty : Bool) (hin : d.inTable) :
    Move d (.close outEmpty) { d with socket := picoSocketClose d.socket outEmpty, inTable := false }

theorem step_move {d d' : Desc n} {a : Act n} (hs : step d a = some d') : Move d a d' := by
  cases a with
  | event e =>
    simp only [step, Option.ite_none_right_eq_some, Option.map_eq_some_iff, Prod.exists] at hs
    obtain ⟨hidle, s, evs, he, rfl⟩ := hs
    exact .event e s evs hidle he
  | stack =>
    simp only [step, Option.map_eq_some_iff] at hs
    obtain ⟨e, he, rfl⟩ := hs
    exact .stack e he
  | read p buf len =>
    simp only [step, Option.ite_none_right_eq_some, Option.some.injEq] at hs
    obtain ⟨⟨hin, haway⟩, rfl⟩ := hs
    exact .read p buf len hin haway
  | accept p =>
    simp only [step, Option.ite_none_right_eq_some, Option.some.injEq] at hs
    obtain ⟨⟨hin, haway⟩, rfl⟩ := hs
    exact .accept p hin haway
  | thread p => exact .thread p d' hs
  | close outEmpty =>
    simp only [step, Option.ite_none_right_eq_some, Option.some.injEq] at hs
    obtain ⟨hin, rfl⟩ := hs
    exact .close outEmpty hin

/-- A descriptor that has just been registered for the socket; no thread is in a call on it. -/
def register (s : PicoSocket) (n : ℕ) : Desc n :=
  { toEntry := fdElemCreate, socket := s, thread := fun _ => .away }

/-- A descriptor registered while the stack has still to call back with these events. -/
def registerOwed (s : PicoSocket) (evs : List (BitVec 16)) (n : ℕ) : Desc n :=
  { register s n with todo := evs.map .lookup }

@[simp] theorem goto_thread_self (d : Desc n) (p : Fin n) (pc : ThreadPc) :
    (d.goto p pc).thread p = pc := Function.update_self ..

theorem goto_thread_of_ne {d : Desc n} {p q : Fin n} (h : q ≠ p) (pc : ThreadPc) :
    (d.goto p pc).thread q = d.thread q := Function.update_of_ne h ..

/-- Moving one thread changes a sum over threads by that thread's share. -/
theorem sum_update (f : ThreadPc → ℕ) (thread : Fin n → ThreadPc) {S : Finset (Fin n)} {p : Fin n}
    (hp : p ∈ S) (pc : ThreadPc) : ∑ q ∈ S, f (Function.update thread p pc q) + f (thread p) =
      ∑ q ∈ S, f (thread q) + f pc := by
  have hrest : ∑ q ∈ S.erase p, f (Function.update thread p pc q) = ∑ q ∈ S.erase p, f (thread q) :=
    Finset.sum_congr rfl fun q hq => by rw [Function.update_of_ne (Finset.ne_of_mem_erase hq)]
  have hnew := Finset.add_sum_erase _ (fun q => f (Function.update thread p pc q)) hp
  have hold := Finset.add_sum_erase _ (fun q => f (thread q)) hp
  simp only [Function.update_self] at hnew
  rw [← hnew, ← hold, hrest]
  omega

@[simp] theorem goto_toEntry (d : Desc n) (p : Fin n) (pc : ThreadPc) :
    (d.goto p pc).toEntry = d.toEntry := rfl

/-- The lengths the threads hold are `int`s. -/
def ThreadPc.InRange : ThreadPc → Prop
  | .readWait _ len | .drainTest _ len | .drainRead _ len | .drainCount _ len _ | .sockRead _ len =>
    -2 ^ 31 ≤ len ∧ len < 2 ^ 31
  | _ => True

/-- What every run keeps. -/
structure Wf (d : Desc n) : Prop where
  sound : Sound d.socket
  range : ∀ p, (d.thread p).InRange

theorem Wf.goto {d : Desc n} (h : Wf d) (p : Fin n) {k : ThreadPc} (hk : k.InRange) :
    Wf (d.goto p k) := by
  refine ⟨h.sound, ?_⟩
  intro q
  by_cases hq : q = p
  · rw [hq, goto_thread_self]
    exact hk
  · rw [goto_thread_of_ne hq]
    exact h.range q

theorem wf_registerOwed {s : PicoSocket} (h : Sound s) (evs : List (BitVec 16)) :
    Wf (registerOwed s evs n) := ⟨h, fun _ => trivial⟩

theorem wf_register {s : PicoSocket} (h : Sound s) : Wf (register s n) := wf_registerOwed h []

theorem wf_threadStep {d d' : Desc n} {p : Fin n} (h : Wf d) (hs : threadStep d p = some d') :
    Wf d' := by
  obtain ⟨pc, hpc, hm⟩ := threadStep_move hs
  have hr := h.range p
  rw [hpc] at hr
  cases hm with
  | readWait buf len => exact ⟨h.sound, (h.goto p (k := .drainTest buf len) hr).range⟩
  | drainTest buf len =>
    refine h.goto p ?_
    split <;> exact hr
  | drainRead buf len => exact ⟨h.sound, (h.goto p (k := .drainCount buf len _) hr).range⟩
  | drainCount buf len k => exact ⟨h.sound, (h.goto p (k := .drainTest buf len) hr).range⟩
  | sockRead buf len =>
    refine ⟨(picoSocketRead_spec h.sound hr.1 hr.2).sound, (h.goto p ?_).range⟩
    split <;> trivial
  | readUnlock ret => exact h.goto p trivial
  | readPost ret v => exact ⟨h.sound, (h.goto p (k := .readDone ret) trivial).range⟩
  | readDone ret => exact h.goto p trivial
  | acceptWait => exact ⟨h.sound, (h.goto p (k := .sockAccept) trivial).range⟩
  | sockAccept =>
    exact ⟨(picoSocketAccept_spec h.sound).1, (h.goto p (k := .acceptDone _) trivial).range⟩
  | acceptDone c => exact h.goto p trivial

theorem wf_step {d d' : Desc n} {a : Act n} (h : Wf d) (hs : step d a = some d') : Wf d' := by
  cases step_move hs with
  | event e s evs hidle he => exact ⟨(event_spec h.sound he).sound, h.range⟩
  | stack e he => exact ⟨h.sound, h.range⟩
  | read p buf len => exact h.goto p (toInt32_range len)
  | accept p => exact h.goto p trivial
  | thread p d' hs => exact wf_threadStep h hs
  | close outEmpty => exact ⟨picoSocketClose_sound h.sound outEmpty, h.range⟩

/-- A thread's step leaves the stack thread where it is and the socket of its kind. -/
theorem threadStep_kept {d d' : Desc n} {p : Fin n} (h : Wf d) (hs : threadStep d p = some d') :
    d'.half = d.half ∧ d'.todo = d.todo ∧ d'.inTable = d.inTable ∧
      SameKind d.socket d'.socket := by
  obtain ⟨pc, hpc, hm⟩ := threadStep_move hs
  have hr := h.range p
  rw [hpc] at hr
  cases hm with
  | sockRead buf len =>
    exact ⟨rfl, rfl, rfl, (picoSocketRead_spec h.sound hr.1 hr.2).shape.toSameKind⟩
  | sockAccept => exact ⟨rfl, rfl, rfl, (picoSocketAccept_spec h.sound).2.2.2⟩
  | _ => exact ⟨rfl, rfl, rfl, .refl _⟩

/-- Only a `pico_socket_read` takes data. -/
theorem threadStep_hasData {d d' : Desc n} {p : Fin n} (h : Wf d)
    (hno : ∀ buf len, d.thread p ≠ .sockRead buf len) (hs : threadStep d p = some d') :
    hasData d'.socket ↔ hasData d.socket := by
  obtain ⟨pc, hpc, hm⟩ := threadStep_move hs
  cases hm with
  | sockRead buf len => exact absurd hpc (hno buf len)
  | sockAccept => exact (picoSocketAccept_spec h.sound).2.1
  | _ => exact .rfl

/-- Only a close takes the entry out of the table. -/
theorem inTable_step {d d' : Desc n} {a : Act n} (hw : Wf d) (hopen : ∀ b, a ≠ .close b)
    (hs : step d a = some d') : d'.inTable = d.inTable := by
  cases step_move hs with
  | stack e he => exact stackStep_inTable he
  | thread p d' hs => exact (threadStep_kept hw hs).2.2.1
  | close outEmpty => exact absurd rfl (hopen outEmpty)
  | event | read | accept => rfl

/-- Only events and closes change the kind of the socket. -/
theorem sameKind_step {d d' : Desc n} {a : Act n} (hw : Wf d) (hevent : ∀ e, a ≠ .event e)
    (hclose : ∀ b, a ≠ .close b) (hs : step d a = some d') : SameKind d.socket d'.socket := by
  cases step_move hs with
  | event e => exact absurd rfl (hevent e)
  | thread p d' hs => exact (threadStep_kept hw hs).2.2.2
  | close b => exact absurd rfl (hclose b)
  | stack | read | accept => exact .refl _

end FdPicotcp.Descriptor
