import FdPicotcp.Table.Ownership

/-! Does `close()` come back?

    `close`, `fd_pico_socket_close` and `fd_elem_delete` call each other through the interposed symbol.
    A call gets fuel, one unit for each call it makes; what it has done when it stops is kept, so that
    the calls to `pico_socket_close` and the descriptors that are released can be counted. -/

namespace FdPicotcp.Recursion
open Transition Socket FdTable Ownership

/-- The sockets passed to `pico_socket_close` and the descriptors passed to the system call, latest
    first; `kernel` are the descriptors that are open. -/
structure State extends World where
  kernel : ℤ → Bool
  closed : List ℕ
  released : List ℤ

/-- What ends a call before it returns. -/
inductive Stop where
  | fuel
  | fault (f : Fault)
  /-- `fd_table[fd]->fd[1]` of an empty slot -/
  | noEntry (fd : ℤ)
  /-- a socket used after `PICO_FREE` -/
  | freed (a : ℕ)
  deriving DecidableEq

/-- The return value and what has been done. -/
abbrev Result := Except (Stop × State) (ℤ × State)

/-- `syscall(__NR_close, fd)` -/
def sysClose (w : State) (fd : ℤ) : ℤ × State :=
  (if w.kernel fd then 0 else -1,
    { w with kernel := Function.update w.kernel fd false, released := fd :: w.released })

/-- What `pico_socket_close` returns. -/
def closeRet (s : PicoSocket) : ℤ :=
  if ¬ (s.proto = .tcp ∧ s.state = .listen) ∧ s.closed then -1 else 0

/-- `pico_socket_close(s)` -/
def State.closeSocket (w : State) (a : ℕ) (s : HeapSocket) (outEmpty : Bool) : State :=
  { w with toWorld := Ownership.closeSocket w.toWorld a s outEmpty, closed := a :: w.closed }

mutual

/-- `close`; `outEmpty` says of each socket whether everything it sent has been acknowledged. -/
def close (outEmpty : ℕ → Bool) : ℕ → State → ℤ → Result
  | 0, w, _ => .error (.fuel, w)
  | n + 1, w, fd =>
    match getSocketFromFd w.globals fd with
    | .error f => .error (.fault f, w)
    | .ok (some _) => fdPicoSocketClose outEmpty n w fd
    | .ok none => .ok (sysClose w fd)

def fdPicoSocketClose (outEmpty : ℕ → Bool) : ℕ → State → ℤ → Result
  | 0, w, _ => .error (.fuel, w)
  | n + 1, w, fd =>
    match getSocketFromFd w.globals fd with
    | .error f => .error (.fault f, w)
    | .ok none => .ok (-1, { w with globals := w.globals.fail .socketNotFound })
    | .ok (some a) =>
      match w.heap a with
      | none => .error (.freed a, w)
      | some s => do
        let (_, w) ← fdElemDelete outEmpty n (w.closeSocket a s (outEmpty a)) fd
        .ok (closeRet s.toPicoSocket, w)

/-- The slot is read again before each end of the pipe is closed. -/
def fdElemDelete (outEmpty : ℕ → Bool) : ℕ → State → ℤ → Result
  | 0, w, _ => .error (.fuel, w)
  | n + 1, w, fd =>
    match slot w.globals fd with
    | .error f => .error (.fault f, w)
    | .ok none => .ok (-1, w)
    | .ok (some e) => do
      let (_, w) ← close outEmpty n w e.fd.1
      match slot w.globals fd with
      | .error f => .error (.fault f, w)
      | .ok none => .error (.noEntry fd, w)
      | .ok (some e) => do
        let (_, w) ← close outEmpty n w e.fd.2
        match setSlot w.globals fd none with
        | .error f => .error (.fault f, w)
        | .ok g => .ok (0, { w with globals := g })

end

/-- The call returns after one `pico_socket_close` and one release of each end of the pipe, and has
    emptied the slot and no other. -/
def ClosesOnce (outEmpty : ℕ → Bool) (w : State) (fd : ℤ) (e : FdElem ℕ) : Prop :=
  ∃ fuel ret w', close outEmpty fuel w fd = .ok (ret, w') ∧ w'.closed = e.socket :: w.closed ∧
    w'.released.Perm (e.fd.1 :: e.fd.2 :: w.released) ∧ slot w'.globals fd = .ok none ∧
    ∀ i, i ≠ fd → slot w'.globals i = slot w.globals i

theorem closeSocket_globals (w : State) (a : ℕ) (s : HeapSocket) (outEmpty : Bool) :
    (w.closeSocket a s outEmpty).globals = w.globals := by
  rw [State.closeSocket, Ownership.closeSocket]
  split <;> rfl

section Turn
variable {outEmpty : ℕ → Bool} {w : State} {fd : ℤ} {e : FdElem ℕ} (he : entry w.globals fd = some e)
include he

theorem getSocketFromFd_entry : getSocketFromFd w.globals fd = .ok (some e.socket) := by
  rw [getSocketFromFd, entry_eq_some.mp he]
  rfl

/-- A socket that is freed is used again. -/
theorem close_freed (hheap : w.heap e.socket = none) (n : ℕ) :
    close outEmpty (n + 2) w fd = .error (.freed e.socket, w) := by
  rw [close, getSocketFromFd_entry he]
  simp only
  rw [fdPicoSocketClose, getSocketFromFd_entry he]
  simp only [hheap]

/-- ONE TURN: the read end of the pipe is the descriptor itself, whose slot is still full. -/
theorem close_turn (hkey : e.fd.1 = fd) {s : HeapSocket} (hheap : w.heap e.socket = some s) {n : ℕ}
    {x : Stop × State}
    (hinner : close outEmpty n (w.closeSocket e.socket s (outEmpty e.socket)) fd = .error x) :
    close outEmpty (n + 3) w fd = .error x := by
  rw [close, getSocketFromFd_entry he]
  simp only
  rw [fdPicoSocketClose, getSocketFromFd_entry he]
  simp only [hheap]
  rw [fdElemDelete, closeSocket_globals, entry_eq_some.mp he]
  simp only [hkey, hinner]
  rfl

end Turn

/-- WITH ANY FUEL the call ends in an error. -/
theorem close_error (outEmpty : ℕ → Bool) {fd : ℤ} {e : FdElem ℕ} (hkey : e.fd.1 = fd) (n : ℕ) :
    ∀ w : State, entry w.globals fd = some e → ∃ x, close outEmpty n w fd = .error x := by
  induction n using Nat.strongRecOn with
  | ind n ih =>
    intro w he
    match n, ih with
    | 0, _ => exact ⟨_, by rw [close]⟩
    | 1, _ =>
      refine ⟨(.fuel, w), ?_⟩
      rw [close, getSocketFromFd_entry he]
      simp only
      rw [fdPicoSocketClose]
    | n + 2, ih =>
      cases hheap : w.heap e.socket with
      | none => exact ⟨_, close_freed he hheap n⟩
      | some s =>
        cases n with
        | zero =>
          refine ⟨(.fuel, w.closeSocket e.socket s (outEmpty e.socket)), ?_⟩
          rw [close, getSocketFromFd_entry he]
          simp only
          rw [fdPicoSocketClose, getSocketFromFd_entry he]
          simp only [hheap]
          rw [fdElemDelete]
          rfl
        | succ n =>
          obtain ⟨x, hx⟩ := ih n (by omega) (w.closeSocket e.socket s (outEmpty e.socket))
            (by rw [closeSocket_globals]; exact he)
          exact ⟨x, close_turn he hkey hheap hx⟩

/-- A socket that one `pico_socket_close` does not free is freed by none. -/
theorem picoSocketClose_keeps {s : PicoSocket} (h : ¬ freedAtOnce s) (outEmpty : Bool) :
    ¬ freedAtOnce (picoSocketClose s outEmpty) := by
  have hdel : ¬ freedAtOnce (picoSocketDel s) := fun hf => hf.2.1 rfl
  rw [picoSocketClose]
  split
  · exact hdel
  · next hlisten =>
    rw [picoSocketShutdown]
    split
    · exact h
    · next hopen =>
      have hbound : s.bound := by
        by_contra hb
        exact h ⟨hlisten, hopen, hb⟩
      rw [if_neg (not_not.mpr hbound)]
      split
      · exact hdel
      · intro hf
        refine hf.2.2 ?_
        rw [picoTcpNotifyClosing]
        split
        · split <;> exact hbound
        · exact hbound

theorem closeSocket_heap {w : State} {a : ℕ} {s : HeapSocket} (h : ¬ freedAtOnce s.toPicoSocket)
    (outEmpty : Bool) : (w.closeSocket a s outEmpty).heap a =
      some { s with toPicoSocket := picoSocketClose s.toPicoSocket outEmpty } := by
  rw [State.closeSocket, Ownership.closeSocket, if_neg h]
  exact put_heap_self ..

/-- AGAIN AND AGAIN: a turn takes three units of fuel and calls `pico_socket_close` once. -/
theorem close_turns (outEmpty : ℕ → Bool) {fd : ℤ} {e : FdElem ℕ} (hkey : e.fd.1 = fd) (k : ℕ) :
    ∀ (w : State) (s : HeapSocket), entry w.globals fd = some e → w.heap e.socket = some s →
      ¬ freedAtOnce s.toPicoSocket → ∃ w', close outEmpty (3 * k) w fd = .error (.fuel, w') ∧
        w'.closed = List.replicate k e.socket ++ w.closed ∧ w'.released = w.released := by
  induction k with
  | zero => exact fun w s he hheap hkept => ⟨w, by rw [Nat.mul_zero, close], rfl, rfl⟩
  | succ k ih =>
    intro w s he hheap hkept
    obtain ⟨w', hstop, hclosed, hreleased⟩ := ih (w.closeSocket e.socket s (outEmpty e.socket)) _
      (by rw [closeSocket_globals]; exact he) (closeSocket_heap hkept _)
      (picoSocketClose_keeps hkept _)
    refine ⟨w', close_turn he hkey hheap hstop, ?_, hreleased⟩
    rw [hclosed, List.replicate_succ', List.append_assoc]
    rfl

/-- The tables that runs lead to: entries come with `fd_elem_create` and go with `fd_elem_delete`,
    and their other fields change in place. -/
inductive Reachable : Globals ℕ → Prop
  | init (rlimCur : ℕ) : Reachable (init start rlimCur)
  | create {g g' : Globals ℕ} {alloc : Alloc} {fd : ℤ × ℤ} {s : ℕ} {ret : ℤ} (h : Reachable g)
      (hc : FdTable.fdElemCreate g alloc fd s = .ok (ret, g')) : Reachable g'
  | update {g g' : Globals ℕ} {i : ℤ} {e e' : FdElem ℕ} (h : Reachable g)
      (he : slot g i = .ok (some e)) (hkept : e'.fd = e.fd ∧ e'.socket = e.socket)
      (hs : setSlot g i (some e') = .ok g') : Reachable g'
  | delete {g g' : Globals ℕ} {fd ret : ℤ} (h : Reachable g)
      (hd : FdTable.fdElemDelete g fd = .ok (ret, g')) : Reachable g'
  | fail {g : Globals ℕ} (h : Reachable g) (e : FdErr) : Reachable (g.fail e)

theorem Reachable.keyed {g : Globals ℕ} (h : Reachable g) : Keyed g := by
  induction h with
  | init rlimCur =>
    intro i e he
    rw [init_entry] at he
    cases he
  | create h hc ih => exact ih.create hc
  | @update g g' i e e' h he hkept hs ih =>
    obtain ⟨hself, hother⟩ := setSlot_entry hs
    intro j x hj
    by_cases hji : j = i
    · rw [hji, hself, Option.some.injEq] at hj
      rw [← hj, hkept.1, hji]
      exact ih i e (entry_eq_some.mpr he)
    · exact ih j x (hother j hji ▸ hj)
  | delete h hd ih => exact ih.delete hd
  | fail h e ih => exact ih

/-- `close()` OF AN ENTRY never comes back, whatever its socket and the rest of the table. -/
theorem close_never {w : State} (hr : Reachable w.globals) {fd : ℤ} {e : FdElem ℕ}
    (he : slot w.globals fd = .ok (some e)) (outEmpty : ℕ → Bool) : ¬ ClosesOnce outEmpty w fd e := by
  rintro ⟨fuel, ret, w', hret, -⟩
  rw [← entry_eq_some] at he
  obtain ⟨x, hx⟩ := close_error outEmpty (hr.keyed fd e he) fuel w he
  rw [hret] at hx
  cases hx

/-- A bound datagram socket under descriptor 3. -/
def oneElem : FdElem ℕ := ⟨(3, 4), 0, 0, 0, 0, 0, 50⟩

def oneEntry : State where
  globals := ((FdTable.fdElemCreate initial .all (3, 4) 50).map Prod.snd).toOption.getD initial
  heap := Function.update (fun _ => none) 50 (some ⟨picoSocketBind (picoSocketOpen .udp), none⟩)
  timers := []
  kernel := fun i => i < 5
  closed := []
  released := []

theorem oneEntry_reachable : Reachable oneEntry.globals := by
  have hcreate : FdTable.fdElemCreate initial .all (3, 4) 50 = .ok (3, oneEntry.globals) := by
    decide +kernel
  exact .create (.init 1024) hcreate

theorem close_never_oneEntry : ¬ ClosesOnce (fun _ => true) oneEntry 3 oneElem :=
  close_never oneEntry_reachable (by decide +kernel) _

/-- Not every table is closed once: that one is not. -/
theorem close_recurses : ¬ ∀ (outEmpty : ℕ → Bool) (w : State) (fd : ℤ) (e : FdElem ℕ),
    Reachable w.globals → slot w.globals fd = .ok (some e) → ClosesOnce outEmpty w fd e := by
  intro h
  have hentry : slot oneEntry.globals 3 = .ok (some oneElem) := by decide +kernel
  obtain ⟨fuel, ret, w', hret, -⟩ := h (fun _ => true) oneEntry 3 oneElem oneEntry_reachable hentry
  have hkey : oneElem.fd.1 = 3 := rfl
  obtain ⟨x, hx⟩ := close_error (fun _ => true) hkey fuel oneEntry (entry_eq_some.mpr hentry)
  rw [hret] at hx
  cases hx

end FdPicotcp.Recursion
