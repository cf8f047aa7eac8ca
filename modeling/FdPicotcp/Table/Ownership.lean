import FdPicotcp.Lib.Transition
import FdPicotcp.Stack.Socket
import FdPicotcp.Table.FdTable

/-! Who owns a picoTCP socket?

    An entry of `fd_table` holds the address of its socket. The stack deletes sockets on its own and
    frees them a little later; nothing tells the table, and the allocator may hand the address out
    again. `Owned` is the invariant that entries and sockets match; a run keeps it as long as the
    stack frees no socket that an entry names (`Spares`). -/

namespace FdPicotcp.Ownership
open Transition Socket FdTable

/-- A socket on the heap, with its listener while it has not been accepted. -/
structure HeapSocket extends PicoSocket where
  parent : Option ℕ
  deriving DecidableEq

/-- The wrapper's globals, the sockets by address, and those the garbage-collect timer will free. -/
structure World where
  globals : Globals ℕ
  heap : ℕ → Option HeapSocket
  timers : List ℕ

def World.put (w : World) (a : ℕ) (s : HeapSocket) : World :=
  { w with heap := Function.update w.heap a (some s) }

/-- `PICO_FREE` -/
def World.free (w : World) (a : ℕ) : World :=
  { w with heap := Function.update w.heap a none, timers := w.timers.erase a }

@[simp] theorem put_heap_self (w : World) (a : ℕ) (s : HeapSocket) : (w.put a s).heap a = some s :=
  Function.update_self ..

theorem put_heap_of_ne {a b : ℕ} (h : b ≠ a) (w : World) (s : HeapSocket) :
    (w.put a s).heap b = w.heap b := Function.update_of_ne h ..

theorem free_heap_of_ne {a b : ℕ} (h : b ≠ a) (w : World) : (w.free a).heap b = w.heap b :=
  Function.update_of_ne h ..

/-- Which `close()` the one in `fd_elem_delete` is: the library's own, or that of libc. -/
inductive Binding where | interposed | libc
  deriving DecidableEq

inductive Act where
  /-- `socket()`: where the allocator puts the socket, and what `pipe()` returns -/
  | socket (a : ℕ) (proto : Proto) (fd : ℤ × ℤ) (alloc : Alloc)
  | bind (fd : ℤ)
  | connect (fd : ℤ)
  | listen (fd backlog : ℤ)
  /-- `accept()` of the child at `a` -/
  | accept (fd : ℤ) (a : ℕ) (pipe : ℤ × ℤ) (alloc : Alloc)
  | close (fd : ℤ) (outEmpty : Bool)
  /-- a SYN arrives at the listener `l`, its clone is put at `a` -/
  | syn (l a : ℕ)
  | firstAck (a : ℕ)
  /-- the stack tears the connection down: reset, timeout, last ACK, `SYN_RECV` expiry -/
  | del (a : ℕ)
  /-- `socket_garbage_collect` by the timer of `pico_socket_del` -/
  | gc (a : ℕ)
  deriving DecidableEq

/-- `pico_socket_connect` binds the socket to a local port and, on a stream, sends the SYN. -/
def picoSocketConnect (s : PicoSocket) : PicoSocket :=
  { picoSocketBind s with state := if s.proto = .tcp then .synSent else s.state }

/-- Apply an operation of the stack to the socket of a descriptor. -/
def onSocket (w : World) (fd : ℤ) (f : PicoSocket → PicoSocket) : Option World :=
  match getSocketFromFd w.globals fd with
  | .ok (some a) => (w.heap a).map fun s => w.put a { s with toPicoSocket := f s.toPicoSocket }
  | _ => none

/-- Register a socket under a new descriptor; an access outside the table ends the run. -/
def register (w : World) (alloc : Alloc) (fd : ℤ × ℤ) (a : ℕ) : Option World :=
  match fdElemCreate w.globals alloc fd a with
  | .ok (_, g) => some { w with globals := g }
  | .error _ => none

/-- `pico_socket_close` frees an unbound socket without a timer. -/
def freedAtOnce (s : PicoSocket) : Prop :=
  ¬ (s.proto = .tcp ∧ s.state = .listen) ∧ ¬ s.closed ∧ ¬ s.bound

/-- `pico_socket_close` deletes listeners and datagram sockets. -/
def deletes (s : PicoSocket) : Prop :=
  (s.proto = .tcp ∧ s.state = .listen) ∨ (¬ s.closed ∧ s.bound ∧ s.proto = .udp)

instance (s : PicoSocket) : Decidable (freedAtOnce s) := inferInstanceAs (Decidable (_ ∧ _))

instance (s : PicoSocket) : Decidable (deletes s) := inferInstanceAs (Decidable (_ ∨ _))

/-- `pico_socket_close` on the heap. -/
def closeSocket (w : World) (a : ℕ) (s : HeapSocket) (outEmpty : Bool) : World :=
  if freedAtOnce s.toPicoSocket then w.free a
  else { w.put a { s with toPicoSocket := picoSocketClose s.toPicoSocket outEmpty } with
    timers := if deletes s.toPicoSocket then a :: w.timers else w.timers }

/-- `fd_pico_socket_close`. The interposed `close()` of the pipe's read end finds the entry still in
    its slot and starts over: the step is one turn of that recursion. -/
def fdPicoSocketClose (inner : Binding) (w : World) (fd : ℤ) (outEmpty : Bool) : Option World :=
  match getSocketFromFd w.globals fd with
  | .ok (some a) => (w.heap a).bind fun s =>
    let w := closeSocket w a s outEmpty
    match inner with
    | .interposed => some w
    | .libc =>
      match fdElemDelete w.globals fd with
      | .ok (_, g) => some { w with globals := g }
      | .error _ => none
  | _ => none

/-- The clone that `tcp_syn` makes of its listener. -/
def synChild (l : ℕ) : HeapSocket :=
  { picoSocketBind (picoSocketOpen .tcp) with state := .synRecv, parent := some l }

def step (inner : Binding) (w : World) : Act → Option World
  | .socket a proto fd alloc =>
    if w.heap a = none then
      register (w.put a { picoSocketOpen proto with parent := none }) alloc fd a
    else none
  | .bind fd => onSocket w fd picoSocketBind
  | .connect fd => onSocket w fd picoSocketConnect
  | .listen fd backlog => onSocket w fd fun s => picoSocketListen s backlog
  | .accept fd a pipe alloc =>
    match getSocketFromFd w.globals fd, w.heap a with
    | .ok (some l), some s =>
      if s.parent = some l ∧ s.state = .established then
        register (w.put a { s with parent := none }) alloc pipe a
      else none
    | _, _ => none
  | .close fd outEmpty => fdPicoSocketClose inner w fd outEmpty
  | .syn l a =>
    if (w.heap l).any (·.state = .listen) ∧ w.heap a = none then some (w.put a (synChild l))
    else none
  | .firstAck a => (w.heap a).bind fun s =>
    if s.state = .synRecv then some (w.put a { s with state := .established }) else none
  | .del a => (w.heap a).bind fun s =>
    if s.inTree then
      some { w.put a { s with toPicoSocket := picoSocketDel s.toPicoSocket } with
        timers := a :: w.timers }
    else none
  | .gc a => if a ∈ w.timers then some (w.free a) else none

/-- After `init`, in a process that may open `rlimCur` files. -/
def begin (rlimCur : ℕ) : World := ⟨init start rlimCur, fun _ => none, []⟩

/-- Every entry names a socket that is allocated and has no listener, and no two name the same. -/
structure Owned (w : World) : Prop where
  live : ∀ i e, entry w.globals i = some e → ∃ s, w.heap e.socket = some s ∧ s.parent = none
  unique : ∀ i j e e', entry w.globals i = some e → entry w.globals j = some e' →
    e.socket = e'.socket → i = j

/-- The stack frees no socket that an entry names: not by its timer, and not in the first turn of a
    `close()` that then leaves the entry in its slot. -/
def Spares (inner : Binding) (w : World) : Act → Prop
  | .gc a => getFdElemFromSocket w.globals a = .ok none
  | .close fd _ => inner = .interposed →
    match getSocketFromFd w.globals fd with
    | .ok (some a) => ∀ s ∈ w.heap a, ¬ freedAtOnce s.toPicoSocket
    | _ => True
  | _ => True

instance (inner : Binding) (w : World) (a : Act) : Decidable (Spares inner w a) := by
  unfold Spares
  split
  · infer_instance
  · split <;> infer_instance
  · infer_instance

/-- Changing a socket keeps the ownership, if one that is named keeps no listener. -/
theorem Owned.put {w : World} (h : Owned w) {a : ℕ} {s : HeapSocket}
    (hs : (∃ i e, entry w.globals i = some e ∧ e.socket = a) → s.parent = none) :
    Owned (w.put a s) := by
  refine ⟨?_, h.unique⟩
  intro i e he
  by_cases ha : e.socket = a
  · exact ⟨s, by rw [ha, put_heap_self], hs ⟨i, e, he, ha⟩⟩
  · rw [put_heap_of_ne ha]
    exact h.live i e he

/-- So does freeing one that is not named. -/
theorem Owned.free {w : World} (h : Owned w) {a : ℕ}
    (ha : ∀ i e, entry w.globals i = some e → e.socket ≠ a) : Owned (w.free a) := by
  refine ⟨?_, h.unique⟩
  intro i e he
  rw [free_heap_of_ne (ha i e he)]
  exact h.live i e he

/-- Registering an allocated socket that no entry names. -/
theorem Owned.register {w w' : World} {alloc : Alloc} {fd : ℤ × ℤ} {a : ℕ} (h : Owned w)
    (ha : ∀ i e, entry w.globals i = some e → e.socket ≠ a)
    (hheap : ∃ s, w.heap a = some s ∧ s.parent = none)
    (hr : Ownership.register w alloc fd a = some w') : Owned w' := by
  rw [Ownership.register] at hr
  split at hr
  · next ret g hcreate =>
    simp only [Option.some.injEq] at hr
    subst hr
    rcases fdElemCreate_inserts hcreate with hsame | ⟨-, hnew, hold⟩
    · refine ⟨fun i e he => h.live i e (hsame i ▸ he), ?_⟩
      intro i j e e' he he' hs
      exact h.unique i j e e' (hsame i ▸ he) (hsame j ▸ he') hs
    · -- an entry is an old one, or the new one at its own key
      have hlook : ∀ i e, entry g i = some e →
          (i = fd.1 ∧ e.socket = a) ∨ (i ≠ fd.1 ∧ entry w.globals i = some e) := by
        intro i e he
        by_cases hi : i = fd.1
        · rw [hi, hnew, Option.some.injEq] at he
          exact .inl ⟨hi, by rw [← he]⟩
        · exact .inr ⟨hi, hold i hi ▸ he⟩
      refine ⟨?_, ?_⟩
      · intro i e he
        rcases hlook i e he with ⟨-, hsock⟩ | ⟨-, hold⟩
        · rw [hsock]
          exact hheap
        · exact h.live i e hold
      · intro i j e e' he he' hs
        rcases hlook i e he with ⟨hi, hsock⟩ | ⟨-, hold⟩
        · rcases hlook j e' he' with ⟨hj, -⟩ | ⟨-, hold'⟩
          · exact hi.trans hj.symm
          · exact absurd (hs.symm.trans hsock) (ha j e' hold')
        · rcases hlook j e' he' with ⟨-, hsock'⟩ | ⟨-, hold'⟩
          · exact absurd (hs.trans hsock') (ha i e hold)
          · exact h.unique i j e e' hold hold' hs
  · cases hr

/-- Nobody names an address that is not allocated, nor a child with a listener. -/
theorem Owned.not_named {w : World} (h : Owned w) {a : ℕ}
    (ha : ∀ s, w.heap a = some s → s.parent ≠ none) :
    ∀ i e, entry w.globals i = some e → e.socket ≠ a := by
  intro i e he hsock
  obtain ⟨s, hs, hp⟩ := h.live i e he
  exact ha s (hsock ▸ hs) hp

/-- STEP, calls that only change the socket of a descriptor. -/
theorem Owned.onSocket {w w' : World} {fd : ℤ} {f : PicoSocket → PicoSocket} (h : Owned w)
    (hs : Ownership.onSocket w fd f = some w') : Owned w' := by
  rw [Ownership.onSocket] at hs
  split at hs
  · next a hfd =>
    obtain ⟨e, he, hsock⟩ := getSocketFromFd_some.mp hfd
    obtain ⟨s, hheap, hparent⟩ := h.live fd e he
    rw [hsock] at hheap
    rw [hheap, Option.map_some, Option.some.injEq] at hs
    subst hs
    exact h.put fun _ => hparent
  · cases hs

/-- STEP, `close()`. -/
theorem Owned.close {inner : Binding} {w w' : World} {fd : ℤ} {outEmpty : Bool} (h : Owned w)
    (hspare : Spares inner w (.close fd outEmpty))
    (hs : fdPicoSocketClose inner w fd outEmpty = some w') : Owned w' := by
  rw [fdPicoSocketClose] at hs
  split at hs
  · next a hfd =>
    obtain ⟨e, he, hsock⟩ := getSocketFromFd_some.mp hfd
    obtain ⟨s, hheap, hparent⟩ := h.live fd e he
    rw [hsock] at hheap
    rw [hheap, Option.bind_some] at hs
    cases inner with
    | interposed =>
      simp only [Option.some.injEq] at hs
      subst hs
      have hbound : ¬ freedAtOnce s.toPicoSocket := by
        have hspare := hspare rfl
        rw [hfd] at hspare
        exact hspare s hheap
      rw [closeSocket, if_neg hbound]
      have hput := h.put (a := a)
        (s := { s with toPicoSocket := picoSocketClose s.toPicoSocket outEmpty }) fun _ => hparent
      exact ⟨hput.live, hput.unique⟩
    | libc =>
      simp only at hs
      split at hs
      · next ret g hdel =>
        simp only [Option.some.injEq] at hs
        subst hs
        have hglobals : (closeSocket w a s outEmpty).globals = w.globals := by
          rw [closeSocket]
          split <;> rfl
        rw [hglobals] at hdel
        obtain ⟨hgone, hold, -⟩ := fdElemDelete_entry hdel
        -- what is left names another socket, which the call has not touched
        have hleft : ∀ i e', entry g i = some e' → entry w.globals i = some e' ∧ e'.socket ≠ a := by
          intro i e' he'
          have hi : i ≠ fd := by
            rintro rfl
            rw [hgone] at he'
            cases he'
          rw [hold i hi] at he'
          exact ⟨he', fun hsock' => hi (h.unique i fd e' e he' he (hsock'.trans hsock.symm))⟩
        have hheap' : ∀ b, b ≠ a → (closeSocket w a s outEmpty).heap b = w.heap b := by
          intro b hb
          rw [closeSocket]
          split
          · exact free_heap_of_ne hb w
          · exact put_heap_of_ne hb w _
        refine ⟨?_, ?_⟩
        · intro i e' he'
          obtain ⟨hentry, hne⟩ := hleft i e' he'
          simp only [hheap' _ hne]
          exact h.live i e' hentry
        · intro i j e₁ e₂ h₁ h₂
          exact h.unique i j e₁ e₂ (hleft i e₁ h₁).1 (hleft j e₂ h₂).1
      · cases hs
  · cases hs

/-- STEP: every step that spares the sockets with an entry keeps the ownership. -/
theorem owned_step {inner : Binding} {w w' : World} {a : Act} (h : Owned w)
    (hspare : Spares inner w a) (hs : step inner w a = some w') : Owned w' := by
  cases a with
  | socket a proto fd alloc =>
    simp only [step, Option.ite_none_right_eq_some] at hs
    obtain ⟨hfree, hs⟩ := hs
    have hno := h.not_named (a := a) fun s hs => by rw [hfree] at hs; cases hs
    have hput := h.put (a := a) (s := { picoSocketOpen proto with parent := none }) fun _ => rfl
    exact hput.register hno ⟨_, put_heap_self .., rfl⟩ hs
  | bind fd => exact h.onSocket (f := picoSocketBind) hs
  | connect fd => exact h.onSocket (f := picoSocketConnect) hs
  | listen fd backlog => exact h.onSocket (f := fun s => picoSocketListen s backlog) hs
  | accept fd a pipe alloc =>
    simp only [step] at hs
    split at hs
    · next l s hl hheap =>
      simp only [Option.ite_none_right_eq_some] at hs
      obtain ⟨⟨hparent, -⟩, hs⟩ := hs
      have hno := h.not_named (a := a) fun t ht => by
        rw [hheap, Option.some.injEq] at ht
        rw [← ht, hparent]
        simp
      have hput := h.put (a := a) (s := { s with parent := none }) fun _ => rfl
      exact hput.register hno ⟨_, put_heap_self .., rfl⟩ hs
    · cases hs
  | close fd outEmpty => exact h.close hspare hs
  | syn l a =>
    simp only [step, Option.ite_none_right_eq_some, Option.some.injEq] at hs
    obtain ⟨⟨-, hfree⟩, rfl⟩ := hs
    have hno := h.not_named (a := a) fun s hs => by rw [hfree] at hs; cases hs
    exact h.put fun ⟨i, e, he, hsock⟩ => absurd hsock (hno i e he)
  | firstAck a =>
    simp only [step, Option.bind_eq_some_iff, Option.ite_none_right_eq_some,
      Option.some.injEq] at hs
    obtain ⟨s, hheap, -, rfl⟩ := hs
    refine h.put fun ⟨i, e, he, hsock⟩ => ?_
    obtain ⟨t, ht, hparent⟩ := h.live i e he
    rw [hsock, hheap, Option.some.injEq] at ht
    exact ht ▸ hparent
  | del a =>
    simp only [step, Option.bind_eq_some_iff, Option.ite_none_right_eq_some,
      Option.some.injEq] at hs
    obtain ⟨s, hheap, -, rfl⟩ := hs
    have hput := h.put (a := a) (s := { s with toPicoSocket := picoSocketDel s.toPicoSocket })
      fun ⟨i, e, he, hsock⟩ => by
        obtain ⟨t, ht, hparent⟩ := h.live i e he
        rw [hsock, hheap, Option.some.injEq] at ht
        exact ht ▸ hparent
    exact ⟨hput.live, hput.unique⟩
  | gc a =>
    simp only [step, Option.ite_none_right_eq_some, Option.some.injEq] at hs
    obtain ⟨-, rfl⟩ := hs
    refine h.free ?_
    intro i e he hsock
    obtain ⟨j, e', hfound⟩ := getFdElemFromSocket_isSome he
    rw [hsock, show getFdElemFromSocket w.globals a = .ok none from hspare] at hfound
    cases hfound

theorem owned_begin (rlimCur : ℕ) : Owned (begin rlimCur) := by
  have hempty : ∀ i, entry (begin rlimCur).globals i = none := init_entry start rlimCur
  exact ⟨fun i e he => (by rw [hempty] at he; cases he),
    fun i j e e' he => (by rw [hempty] at he; cases he)⟩

/-- What the table promises for a descriptor: its socket is allocated and is no other descriptor's,
    and the search by socket leads back to it. -/
def Owns (w : World) (i : ℤ) (e : FdElem ℕ) : Prop :=
  (w.heap e.socket).isSome ∧ (∀ j e', entry w.globals j = some e' → e'.socket = e.socket → j = i) ∧
    getSocketFromFd w.globals i = .ok (some e.socket) ∧
    ∃ j : ℕ, getFdElemFromSocket w.globals e.socket = .ok (some (j, e)) ∧ j = i

theorem Owned.owns {w : World} (h : Owned w) {i : ℤ} {e : FdElem ℕ}
    (he : entry w.globals i = some e) : Owns w i e := by
  obtain ⟨s, hs, -⟩ := h.live i e he
  obtain ⟨j, e', hfound⟩ := getFdElemFromSocket_isSome he
  obtain ⟨he', hsock⟩ := getFdElemFromSocket_some hfound
  have hji : (j : ℤ) = i := h.unique j i e' e he' he hsock
  rw [hji, he, Option.some.injEq] at he'
  subst he'
  exact ⟨by rw [hs]; rfl, fun k e' hk hsock => h.unique k i e' e hk he hsock,
    getSocketFromFd_some.mpr ⟨e, he, rfl⟩, j, hfound, hji⟩

/-- EVERY ENTRY OWNS A LIVE SOCKET in a run in which the stack frees none that an entry names. -/
theorem entries_own {inner : Binding} {rlimCur : ℕ} {as : List Act} {w : World}
    (hm : Meets (step inner) (Spares inner) (begin rlimCur) as)
    (hr : run (step inner) (begin rlimCur) as = some w) {i : ℤ} {e : FdElem ℕ}
    (he : entry w.globals i = some e) : Owns w i e := by
  have hend : Owned w :=
    run_keeps (fun _ _ _ hi ha hs => owned_step hi ha hs) (owned_begin rlimCur) hm hr
  exact hend.owns he

/-- A connection is reset while its descriptor is open; the timer then frees the socket. -/
def resetFreed : List Act := [.socket 50 .tcp (3, 4) .all, .connect 3, .del 50, .gc 50]

theorem resetFreed_runs : (run (step .interposed) (begin 1024) resetFreed).isSome := by
  decide +kernel

/-- Descriptor 3 still names the socket that was freed. -/
theorem entry_dangles : ¬ ∀ (as : List Act) (w : World) (i : ℤ) (e : FdElem ℕ),
    run (step .interposed) (begin 1024) as = some w → entry w.globals i = some e → Owns w i e := by
  intro h
  have hentry : (entry (Option.get _ resetFreed_runs).globals 3).isSome := by decide +kernel
  obtain ⟨e, he⟩ := Option.isSome_iff_exists.mp hentry
  have hsock : (entry (Option.get _ resetFreed_runs).globals 3).map (·.socket) = some 50 := by
    decide +kernel
  rw [he, Option.map_some, Option.some.injEq] at hsock
  have hlive := (h resetFreed _ 3 e (Option.some_get resetFreed_runs).symm he).1
  rw [hsock] at hlive
  exact absurd hlive (by decide +kernel)

/-- A listener accepts a connection. -/
def acceptOne : List Act :=
  [.socket 50 .tcp (3, 4) .all, .bind 3, .listen 3 5, .syn 50 60, .firstAck 60,
    .accept 3 60 (5, 6) .all]

theorem acceptOne_runs : (run (step .interposed) (begin 1024) acceptOne).isSome := by
  decide +kernel

theorem acceptOne_entry : (entry (Option.get _ acceptOne_runs).globals 5).isSome := by decide +kernel

/-- Descriptor 5 owns the accepted socket. -/
theorem entries_own_acceptOne : Owns (Option.get _ acceptOne_runs) 5 (Option.get _ acceptOne_entry) :=
  entries_own (by decide +kernel) (Option.some_get acceptOne_runs).symm
    (Option.some_get acceptOne_entry).symm

end FdPicotcp.Ownership
