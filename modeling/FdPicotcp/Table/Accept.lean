import FdPicotcp.Address.Family
import FdPicotcp.Address.Peer
import FdPicotcp.Table.Growth

/-! `accept()` on a descriptor of the wrapper (`socket.c`, `fd_functions.c`).

    The call takes its token, then a connection from the listener, and only then asks for a pipe and an
    entry. The -1 of a failure goes back through `accept()`, which looks the result up in the table. -/

namespace FdPicotcp.Accept
open CInt Socket FdTable Growth AddressText Family

/-- A connection that waits: its socket and its remote endpoint, the port in network order. -/
structure Peer where
  socket : ℕ
  remoteAddr : Memory
  remotePort : UInt16

/-- `net` is the family a socket was opened with, `peer` the connection behind a child. -/
structure World where
  globals : Globals ℕ
  heap : ℕ → Option PicoSocket
  net : ℕ → Net
  peer : ℕ → Peer

/-- What the call asks the system for: `malloc(sizeof(int))`, `pipe()` and what `pipefd` holds if it
    fails, the allocations of `fd_elem_create`; `sys` is the kernel's own `accept()`. -/
structure Env where
  port : Bool
  pipe : Option (ℤ × ℤ)
  junk : ℤ × ℤ
  alloc : Alloc
  sys : ℤ

/-- What ends the call before it returns. -/
inductive Stop where
  /-- `sem_wait` -/
  | blocks
  | fault (f : Fault)
  | freed (a : ℕ)
  /-- 16 bytes copied into a `pico_ip4` -/
  | overflow
  | nullPort
  deriving DecidableEq

/-- What `fd_pico_socket_accept` leaves: the text and the port if it has written them, and the
    descriptors it has passed to `fd_elem_create`. -/
structure Given where
  ret : ℤ
  world : World
  strAddr : Option (List Char)
  pPort : Option ℤ
  used : Option (ℤ × ℤ)

/-- `sockaddr_in`, `sockaddr_in6` -/
structure SockAddr where
  family : ℕ
  port : UInt16
  addr : List UInt8
  deriving DecidableEq

/-- What `accept()` has returned and written. -/
structure Out where
  ret : ℤ
  world : World
  sockaddr : Option SockAddr
  addrlen : Option ℕ
  used : Option (ℤ × ℤ)

/-- `fd_err = e` -/
def World.fail (w : World) (e : FdErr) : World := { w with globals := w.globals.fail e }

/-- `waiton_sem(l->accept_sem)` -/
def waitonSem (w : World) (fd : ℤ) (l : FdElem ℕ) : Except Stop World :=
  if l.acceptSem = 0 then .error .blocks
  else match setSlot w.globals fd (some { l with acceptSem := l.acceptSem - 1 }) with
    | .error f => .error (.fault f)
    | .ok g => .ok { w with globals := g }

/-- The end of `fd_pico_socket_accept`; the result of `pipe()` is not looked at. -/
def handOut (w : World) (l : FdElem ℕ) (c : ℕ) (strAddr : List Char) (pPort : ℤ) (env : Env) :
    Except Stop Given :=
  let pipefd := env.pipe.getD env.junk
  match fdElemCreate w.globals env.alloc pipefd c with
  | .error f => .error (.fault f)
  | .ok (newFd, g) =>
    if newFd < 0 then
      .ok ⟨-1, { w with globals := g }, some strAddr, some pPort, some pipefd⟩
    else if l.isIpv6 = 0 then
      .ok ⟨newFd, { w with globals := g }, some strAddr, some pPort, some pipefd⟩
    else match setIsIpv6 g newFd 1 with
      | .error f => .error (.fault f)
      | .ok g => .ok ⟨newFd, { w with globals := g }, some strAddr, some pPort, some pipefd⟩

/-- `sizeof(struct pico_ip4)`, `sizeof(struct pico_ip6)` -/
def addrSize : Net → ℕ
  | .ipv4 => 4
  | .ipv6 => 16

/-- `pico_socket_accept` copies as many bytes as an address of the listener's family has. -/
def copied (net : Net) (remoteAddr : Memory) : Memory := fun i =>
  if i < addrSize net then remoteAddr i else 0

/-- The call past its semaphore. -/
def takeChild (w : World) (l : FdElem ℕ) (env : Env) : Except Stop Given :=
  match w.heap l.socket with
  | none => .error (.freed l.socket)
  | some s =>
    match picoSocketAccept s with
    | (_, none) => .ok ⟨-1, w.fail .socketIsNull, none, none, none⟩
    | (s, some c) =>
      let w := { w with heap := Function.update w.heap l.socket (some s) }
      let ip := copied (w.net l.socket) (w.peer c.remote).remoteAddr
      let strAddr := if l.isIpv6 = 0 then picoIpv4ToString ip else picoIpv6ToString ip
      if l.isIpv6 = 0 ∧ w.net l.socket = .ipv6 then .error .overflow
      else if ¬ env.port then .error .nullPort
      else handOut w l (w.peer c.remote).socket strAddr (w.peer c.remote).remotePort.toNat env

/-- `fd_pico_socket_accept`: the token, then the connection. -/
def fdPicoSocketAccept (w : World) (fd : ℤ) (env : Env) : Except Stop Given :=
  match slot w.globals fd with
  | .error f => .error (.fault f)
  | .ok none => .ok ⟨-1, w.fail .socketNotFound, none, none, none⟩
  | .ok (some l) => (waitonSem w fd l).bind fun w => takeChild w l env

/-- `s->sin_port = *p_port` -/
def sinPort (pPort : ℤ) : UInt16 := .ofNat (toUint16 pPort)

/-- `stale` is what `sin6_addr` held. -/
def fillIn (l : FdElem ℕ) (g : Given) (stale : List UInt8) : Out :=
  let strAddr := g.strAddr.getD []
  let port := sinPort (g.pPort.getD 0)
  if l.isIpv6 = 0 then
    ⟨g.ret, g.world, some ⟨Net.ipv4.af, port, inetAddr strAddr⟩, some 16, g.used⟩
  else
    ⟨g.ret, g.world, some ⟨Net.ipv6.af, port, (inetPton strAddr).getD stale⟩, some 28, g.used⟩

/-- `accept()` of `socket.c` -/
def accept (w : World) (fd : ℤ) (stale : List UInt8) (env : Env) : Except Stop Out :=
  match getSocketFromFd w.globals fd with
  | .error f => .error (.fault f)
  | .ok none => .ok ⟨env.sys, w, none, none, none⟩
  | .ok (some _) => (fdPicoSocketAccept w fd env).bind fun g =>
    match slot g.world.globals g.ret with
    | .error f => .error (.fault f)
    | .ok none => .ok ⟨-1, g.world, none, some 0, g.used⟩
    | .ok (some l) => .ok (fillIn l g stale)

/-! What a call that comes back has done -/

/-- The connection that a call takes from its listener. -/
structure Taken (w : World) (l : FdElem ℕ) (s : PicoSocket) (c : Child) : Prop where
  heap : w.heap l.socket = some s
  accept : (picoSocketAccept s).2 = some c

/-- A call that hands out a descriptor: its new entry is of the listener's kind, and the text and the
    port are those of the connection. -/
structure HandedOut (w : World) (l : FdElem ℕ) (g : Given) (e : FdElem ℕ) (s : PicoSocket)
    (c : Child) : Prop where
  entry : entry g.world.globals g.ret = some e
  kind : e.isIpv6 = 0 ↔ l.isIpv6 = 0
  taken : Taken w l s c
  strAddr : g.strAddr = some (if l.isIpv6 = 0
    then picoIpv4ToString (copied (w.net l.socket) (w.peer c.remote).remoteAddr)
    else picoIpv6ToString (copied (w.net l.socket) (w.peer c.remote).remoteAddr))
  pPort : g.pPort = some ((w.peer c.remote).remotePort.toNat : ℤ)

theorem handOut_spec {w : World} {l : FdElem ℕ} {c : ℕ} {strAddr : List Char} {pPort : ℤ} {env : Env}
    {g : Given} (h : handOut w l c strAddr pPort env = .ok g) : g.ret = -1 ∨
      (g.strAddr = some strAddr ∧ g.pPort = some pPort ∧
        ∃ e, entry g.world.globals g.ret = some e ∧ (e.isIpv6 = 0 ↔ l.isIpv6 = 0)) := by
  simp only [handOut] at h
  split at h
  · cases h
  · next newFd u hcreate =>
    split at h
    · cases h
      exact .inl rfl
    · next hpos =>
      have hnew : entry u newFd = some ⟨env.pipe.getD env.junk, 0, 0, 0, 0, 0, c⟩ := by
        rcases (fdElemCreate_created hcreate).map with ⟨hneg, -⟩ | ⟨hret, -, hentry, -⟩
        · omega
        · rw [hret]
          exact hentry
      split at h
      · next h4 =>
        cases h
        exact .inr ⟨rfl, rfl, _, hnew, by simp [h4]⟩
      · next h6 =>
        split at h
        · cases h
        · next v hset =>
          cases h
          exact .inr ⟨rfl, rfl, _, (setIsIpv6_entry hnew hset).1, by simp [h6]⟩

theorem takeChild_spec {w : World} {l : FdElem ℕ} {env : Env} {g : Given}
    (h : takeChild w l env = .ok g) : g.ret = -1 ∨ ∃ e s c, HandedOut w l g e s c := by
  rw [takeChild] at h
  split at h
  · cases h
  · next s hheap =>
    split at h
    · cases h
      exact .inl rfl
    · next s' c hacc =>
      simp only at h
      split at h
      · cases h
      · split at h
        · cases h
        · rcases handOut_spec h with hfail | ⟨hstr, hport, e, he, hkind⟩
          · exact .inl hfail
          · exact .inr ⟨e, s, c, he, hkind, ⟨hheap, by rw [hacc]⟩, hstr, hport⟩

theorem waitonSem_spec {w w' : World} {fd : ℤ} {l : FdElem ℕ} (h : waitonSem w fd l = .ok w') :
    0 < l.acceptSem ∧ w'.heap = w.heap ∧ w'.net = w.net ∧ w'.peer = w.peer ∧
      setSlot w.globals fd (some { l with acceptSem := l.acceptSem - 1 }) = .ok w'.globals := by
  rw [waitonSem] at h
  split at h
  · cases h
  · next hpos =>
    split at h
    · cases h
    · next g hset =>
      cases h
      exact ⟨Nat.pos_of_ne_zero hpos, rfl, rfl, rfl, hset⟩

/-- The call takes a token and then a connection. -/
theorem fdPicoSocketAccept_eq {w : World} {fd : ℤ} {env : Env} {g : Given} {l : FdElem ℕ}
    (hl : slot w.globals fd = .ok (some l)) (h : fdPicoSocketAccept w fd env = .ok g) :
    ∃ v, waitonSem w fd l = .ok v ∧ takeChild v l env = .ok g := by
  rw [fdPicoSocketAccept, hl] at h
  simp only at h
  cases hwait : waitonSem w fd l with
  | error f =>
    rw [hwait] at h
    cases h
  | ok v =>
    rw [hwait] at h
    exact ⟨v, rfl, h⟩

theorem fdPicoSocketAccept_spec {w : World} {fd : ℤ} {env : Env} {g : Given} {l : FdElem ℕ}
    (hl : slot w.globals fd = .ok (some l)) (h : fdPicoSocketAccept w fd env = .ok g) :
    g.ret = -1 ∨ ∃ e s c, HandedOut w l g e s c := by
  obtain ⟨v, hwait, htake⟩ := fdPicoSocketAccept_eq hl h
  obtain ⟨-, hheap, hnet, hpeer, -⟩ := waitonSem_spec hwait
  rcases takeChild_spec htake with hfail | ⟨e, s, c, he, hkind, ⟨hs, hc⟩, hstr, hport⟩
  · exact .inl hfail
  · rw [hheap] at hs
    rw [hnet, hpeer] at hstr
    rw [hpeer] at hport
    exact .inr ⟨e, s, c, he, hkind, ⟨hs, hc⟩, hstr, hport⟩

/-- There is no slot -1. -/
theorem slot_neg (g : Globals ℕ) : ∃ f, slot g (-1) = .error f := by
  rw [slot]
  cases g.fdTable with
  | none => exact ⟨_, rfl⟩
  | some l => exact ⟨.outOfRange (-1), rfl⟩

/-- A CALL THAT COMES BACK on a descriptor of the wrapper has handed out a connection. -/
theorem accept_spec {w : World} {fd : ℤ} {stale : List UInt8} {env : Env} {o : Out} {l : FdElem ℕ}
    (hl : slot w.globals fd = .ok (some l)) (h : accept w fd stale env = .ok o) :
    ∃ g e s c, HandedOut w l g e s c ∧ o = fillIn e g stale := by
  have hsock : getSocketFromFd w.globals fd = .ok (some l.socket) := by
    rw [getSocketFromFd, hl]
    rfl
  rw [accept, hsock] at h
  simp only at h
  cases hcall : fdPicoSocketAccept w fd env with
  | error f => rw [hcall] at h; cases h
  | ok g =>
    rw [hcall] at h
    change (match slot g.world.globals g.ret with
      | .error f => Except.error (Stop.fault f)
      | .ok none => .ok (Out.mk (-1) g.world none (some 0) g.used)
      | .ok (some l) => .ok (fillIn l g stale)) = .ok o at h
    rcases fdPicoSocketAccept_spec hl hcall with hfail | ⟨e, s, c, hout⟩
    · obtain ⟨f, hf⟩ := slot_neg g.world.globals
      rw [hfail, hf] at h
      cases h
    · rw [entry_eq_some.mp hout.entry] at h
      cases h
      exact ⟨g, e, s, c, hout, rfl⟩

theorem sinPort_toNat (port : UInt16) : sinPort port.toNat = port := by
  have hp := port.toNat_lt
  rw [sinPort, ← UInt16.toNat_inj, UInt16.toNat_ofNat', toUint16]
  omega

/-- The address of a family in network order. -/
def addrBytes (net : Net) (addr : Memory) : List UInt8 := (List.range (addrSize net)).map addr

theorem Taken.unique {w : World} {l : FdElem ℕ} {s s' : PicoSocket} {c c' : Child}
    (h : Taken w l s c) (h' : Taken w l s' c') : c = c' := by
  have hs := h.heap
  rw [h'.heap, Option.some.injEq] at hs
  subst hs
  have hc := h.accept
  rw [h'.accept, Option.some.injEq] at hc
  exact hc.symm

/-- ACCEPT: the `sockaddr` has the family of the listener, and the peer's address and port. -/
theorem accept_sockaddr {w : World} {fd : ℤ} {stale : List UInt8} {env : Env} {o : Out}
    {l : FdElem ℕ} {s : PicoSocket} {c : Child} (hl : slot w.globals fd = .ok (some l))
    (hnet : l.isIpv6 = (w.net l.socket).isIpv6) (ht : Taken w l s c)
    (h : accept w fd stale env = .ok o) :
    o.sockaddr = some ⟨(w.net l.socket).af, (w.peer c.remote).remotePort,
      addrBytes (w.net l.socket) (w.peer c.remote).remoteAddr⟩ := by
  obtain ⟨g, e, s', c', ⟨-, hkind, ht', hstr, hport⟩, rfl⟩ := accept_spec hl h
  obtain rfl := ht.unique ht'
  rw [fillIn, hstr, hport]
  simp only [Option.getD_some, sinPort_toNat]
  cases hfam : w.net l.socket with
  | ipv4 =>
    have h4 : l.isIpv6 = 0 := by rw [hnet, hfam]; rfl
    rw [if_pos (hkind.mpr h4), if_pos h4, inetAddr_picoIpv4ToString]
    rfl
  | ipv6 =>
    have h6 : ¬ l.isIpv6 = 0 := by rw [hnet, hfam]; decide
    rw [if_neg fun he => h6 (hkind.mp he), if_neg h6, inetPton_picoIpv6ToString]
    rfl

/-- What `fd_pico_socket_bind` does once it has read the IPv4 address `ip`. -/
def bindIpv4 (masks : Masks) (w : Family.World) (fd : ℤ) (a : ℕ) (ip : List UInt8)
    (env : Family.Env) : Option Family.World :=
  if (picoStringToIpv4 masks.ipv4).isNone then some (w.fail .invalidNetmask)
  else match link w env (.ip4 ip) with
    | none => some (w.fail .interfaceNotLinked)
    | some w => stackCall w fd a (.ip4 ip) env.ok picoSocketBind

theorem fdPicoSocketBind_inetNtoa (masks : Masks) (w : Family.World) (fd : ℤ) (a : ℕ)
    (sinAddr : Memory) (env : Family.Env) :
    fdPicoSocketBind masks w fd a (inetNtoa sinAddr) env =
      bindIpv4 masks w fd a (addrBytes .ipv4 sinAddr) env := by
  rw [fdPicoSocketBind, if_pos (isIpv4_inetNtoa sinAddr), picoStringToIpv4_inetNtoa]
  rfl

theorem fdPicoSocketConnect_inetNtoa (w : Family.World) (fd : ℤ) (l : FdElem ℕ) (sinAddr : Memory)
    (ok : Bool) : fdPicoSocketConnect w fd l (inetNtoa sinAddr) ok =
      if l.isIpv6 = 0 then
        stackCall w fd l.socket (.ip4 (addrBytes .ipv4 sinAddr)) ok Ownership.picoSocketConnect
      else some (w.fail .invalidAddress) := by
  rw [fdPicoSocketConnect, picoStringToIpv4_inetNtoa, picoStringToIpv6_inetNtoa]
  rfl

/-- ADDRESSES SURVIVE: `bind()` and `connect()` of a `sockaddr_in` give picoTCP the bytes of
    `sin_addr`, and `accept()` fills in the bytes of the peer's address and its port. -/
theorem addresses_survive :
    (∀ (inner : Ownership.Binding) (masks : Masks) (w : Family.World) (fd : ℤ) (addr : Memory)
      (stale : List Char) (env : Family.Env), Family.step inner masks w (.bind fd addr 16 stale env) =
        match getSocketFromFd w.own.globals fd with
        | .ok (some a) => bindIpv4 masks w fd a (addrBytes .ipv4 fun i => addr (4 + i)) env
        | _ => none) ∧
    (∀ (inner : Ownership.Binding) (masks : Masks) (w : Family.World) (fd : ℤ) (addr : Memory)
      (stale : List Char) (ok : Bool), Family.step inner masks w (.connect fd addr 16 stale ok) =
        match slot w.own.globals fd with
        | .ok (some l) =>
          if l.isIpv6 = 0 then stackCall w fd l.socket
            (.ip4 (addrBytes .ipv4 fun i => addr (4 + i))) ok Ownership.picoSocketConnect
          else some (w.fail .invalidAddress)
        | _ => none) ∧
    ∀ (w : World) (fd : ℤ) (stale : List UInt8) (env : Env) (o : Out) (l : FdElem ℕ)
      (s : PicoSocket) (c : Child), slot w.globals fd = .ok (some l) →
      l.isIpv6 = (w.net l.socket).isIpv6 → Taken w l s c → accept w fd stale env = .ok o →
      o.sockaddr = some ⟨(w.net l.socket).af, (w.peer c.remote).remotePort,
        addrBytes (w.net l.socket) (w.peer c.remote).remoteAddr⟩ := by
  refine ⟨?_, ?_, fun w fd stale env o l s c => accept_sockaddr⟩
  · intro inner masks w fd addr stale env
    rcases hsocket : getSocketFromFd w.own.globals fd with x | ⟨_ | a⟩
    all_goals simp only [Family.step, hsocket, addrString, if_true, fdPicoSocketBind_inetNtoa]
  · intro inner masks w fd addr stale ok
    rcases hslot : slot w.own.globals fd with x | ⟨_ | l⟩
    all_goals simp only [Family.step, hslot, addrString, if_true, fdPicoSocketConnect_inetNtoa]

/-- A listener under descriptor 3 with a token and an established connection from 192.168.0.9. -/
def oneWaits : World where
  globals := (insertElem initial ⟨(3, 4), 0, 0, 0, 1, 0, 50⟩).toOption.elim initial Prod.snd
  heap := Function.update (fun _ => none) 50 <| some
    { picoSocketListen (picoSocketBind (picoSocketOpen .tcp)) 5 with
      children := [⟨7, .established⟩]
      numberOfPendingConn := 1 }
  net := fun _ => .ipv4
  peer := fun _ => ⟨60, fun i => [192, 168, 0, 9].getD i 0, 0x1234⟩

/-- Every allocation succeeds. -/
def allGranted : Env := ⟨true, some (5, 6), (0, 0), .all, -1⟩

theorem oneWaits_accepts : (accept oneWaits 3 [] allGranted).toOption.isSome := by decide +kernel

theorem addresses_survive_oneWaits : (accept oneWaits 3 [] allGranted).toOption.map (·.sockaddr) =
    some (some ⟨2, 0x1234, [192, 168, 0, 9]⟩) := by
  have htaken : Taken oneWaits ⟨(3, 4), 0, 0, 0, 1, 0, 50⟩ _ ⟨7, .established⟩ :=
    ⟨rfl, by decide +kernel⟩
  have hruns := oneWaits_accepts
  cases ho : accept oneWaits 3 [] allGranted with
  | error f =>
    rw [ho] at hruns
    cases hruns
  | ok o =>
    have hfilled := addresses_survive.2.2 oneWaits 3 [] allGranted o ⟨(3, 4), 0, 0, 0, 1, 0, 50⟩ _ _
      (by decide +kernel) rfl htaken ho
    exact congrArg some hfilled

/-! A call that fails -/

/-- The causes of a failure past the semaphore. -/
inductive Fails (w : World) (l : FdElem ℕ) (env : Env) : Prop
  | noChild (s : PicoSocket) (hs : w.heap l.socket = some s) (h : (picoSocketAccept s).2 = none)
  | port (h : ¬ env.port)
  | pipe (h : env.pipe = none)
  | alloc (h : ¬ Allocated env.alloc)
  | limit (p : ℤ × ℤ) (hp : env.pipe = some p)
      (hgrow : w.globals.fdTableSize ≤ p.1 ∨ w.globals.fdTableSize ≤ p.2)
      (h : w.globals.maxFd < toInt32 (2 * w.globals.fdTableSize) ∨ ¬ env.alloc.table)
  | occupied (p : ℤ × ℤ) (hp : env.pipe = some p) (h : Live w.globals p.1)

/-- The call returns -1, has passed only descriptors from `pipe()`, and leaves the table, the
    semaphore and the connections as they were. -/
def ChangesNothing (w : World) (fd : ℤ) (stale : List UInt8) (env : Env) : Prop :=
  ∃ o, accept w fd stale env = .ok o ∧ o.ret = -1 ∧ (∀ p, o.used = some p → env.pipe = some p) ∧
    (∀ i, slot o.world.globals i = slot w.globals i) ∧ o.world.heap = w.heap

/-- The token is taken, and the connection too if there was one. -/
structure Lost (w : World) (fd : ℤ) (l : FdElem ℕ) (g : Given) : Prop where
  token : 0 < l.acceptSem ∧
    entry g.world.globals fd = some { l with acceptSem := l.acceptSem - 1 }
  child : ∀ s c, Taken w l s c → g.world.heap l.socket = some (picoSocketAccept s).1

/-- A table that cannot grow takes no entry from outside. -/
theorem fdElemCreate_limit {g g' : Globals ℕ} {alloc : Alloc} {fd : ℤ × ℤ} {s : ℕ} {ret : ℤ}
    (hgrow : g.fdTableSize ≤ fd.1 ∨ g.fdTableSize ≤ fd.2)
    (hlimit : g.maxFd < toInt32 (2 * g.fdTableSize) ∨ ¬ alloc.table)
    (h : fdElemCreate g alloc fd s = .ok (ret, g')) : ret = -1 := by
  by_cases halloc : Allocated alloc
  · rw [fdElemCreate_of_allocated halloc, if_pos hgrow] at h
    by_cases hmax : g.maxFd < toInt32 (2 * g.fdTableSize)
    · rw [if_pos hmax] at h
      cases h
      rfl
    · rw [if_neg hmax] at h
      have hnone : growTable g alloc.table = .ok none := by
        rw [growTable.eq_def]
        simp only
        rw [dif_neg fun hok => (hlimit.resolve_left hmax) hok.1]
      rw [hnone] at h
      cases h
      rfl
  · exact (fdElemCreate_of_not_allocated halloc h).1

/-- Nothing is stored over an entry. -/
theorem fdElemCreate_occupied {g g' : Globals ℕ} {alloc : Alloc} {fd : ℤ × ℤ} {s : ℕ} {ret : ℤ}
    (hlive : Live g fd.1) (h : fdElemCreate g alloc fd s = .ok (ret, g')) : ret = -1 := by
  obtain ⟨e, he⟩ := hlive
  rcases (fdElemCreate_created h).map with ⟨hret, -⟩ | ⟨-, hnone, -⟩
  · exact hret
  · rw [entry_eq_some.mpr he] at hnone
    cases hnone

/-- `fd_elem_create` and the flag leave every old entry. -/
theorem handOut_entry {w : World} {l : FdElem ℕ} {c : ℕ} {strAddr : List Char} {pPort : ℤ}
    {env : Env} {g : Given} {i : ℤ} {e : FdElem ℕ} (he : entry w.globals i = some e)
    (h : handOut w l c strAddr pPort env = .ok g) :
    entry g.world.globals i = some e ∧ g.world.heap = w.heap := by
  simp only [handOut] at h
  split at h
  · cases h
  · next newFd u hcreate =>
    have hmap := (fdElemCreate_created hcreate).map
    have hkept : entry u i = some e ∧ (0 ≤ newFd → i ≠ newFd) := by
      rcases hmap with ⟨hneg, hsame⟩ | ⟨hret, hfree, -, hold⟩
      · exact ⟨by rw [hsame, he], fun hpos => by omega⟩
      · have hi : i ≠ newFd := by
          rintro rfl
          rw [hret, hfree] at he
          cases he
        exact ⟨by rw [hold i (hret ▸ hi), he], fun _ => hi⟩
    split at h
    · cases h
      exact ⟨hkept.1, rfl⟩
    · next hpos =>
      split at h
      · cases h
        exact ⟨hkept.1, rfl⟩
      · split at h
        · cases h
        · next v hset =>
          cases h
          have hnew : ∃ x, entry u newFd = some x := by
            rcases hmap with ⟨hneg, -⟩ | ⟨hret, -, hentry, -⟩
            · omega
            · exact ⟨_, hret ▸ hentry⟩
          obtain ⟨x, hx⟩ := hnew
          exact ⟨by rw [(setIsIpv6_entry hx hset).2 i (hkept.2 (by omega)), hkept.1], rfl⟩

theorem takeChild_lost {w : World} {l : FdElem ℕ} {env : Env} {g : Given} {i : ℤ} {e : FdElem ℕ}
    (he : entry w.globals i = some e) (h : takeChild w l env = .ok g) :
    entry g.world.globals i = some e ∧
      ∀ s c, Taken w l s c → g.world.heap l.socket = some (picoSocketAccept s).1 := by
  rw [takeChild] at h
  split at h
  · cases h
  · next s hheap =>
    split at h
    · next s' hacc =>
      cases h
      refine ⟨he, ?_⟩
      intro t c ht
      have hs := ht.heap
      rw [hheap, Option.some.injEq] at hs
      rw [← hs] at ht
      exact absurd ht.accept (by rw [hacc]; simp)
    · next s' c hacc =>
      simp only at h
      split at h
      · cases h
      · split at h
        · cases h
        · obtain ⟨hentry, hheap'⟩ :=
            handOut_entry (w := { w with heap := Function.update w.heap l.socket (some s') }) he h
          refine ⟨hentry, ?_⟩
          intro t d ht
          have hs := ht.heap
          rw [hheap, Option.some.injEq] at hs
          rw [hheap', ← hs, hacc]
          exact Function.update_self ..

/-- WHATEVER THE CAUSE, the call returns -1, or it uses descriptors that `pipe()` has not given. -/
theorem takeChild_fails {w : World} {l : FdElem ℕ} {env : Env} {g : Given} (hf : Fails w l env)
    (h : takeChild w l env = .ok g) : g.ret = -1 ∨ env.pipe = none := by
  rw [takeChild] at h
  split at h
  · cases h
  · next s hheap =>
    split at h
    · cases h
      exact .inl rfl
    · next s' c hacc =>
      simp only at h
      split at h
      · cases h
      · split at h
        · cases h
        · next hport =>
          simp only [handOut] at h
          split at h
          · cases h
          · next newFd u hcreate =>
            have hret : newFd = -1 ∨ env.pipe = none := by
              cases hf with
              | noChild t ht hnone =>
                rw [hheap, Option.some.injEq] at ht
                rw [← ht, hacc] at hnone
                cases hnone
              | port hno => exact absurd hno hport
              | pipe hpipe => exact .inr hpipe
              | alloc halloc => exact .inl (fdElemCreate_of_not_allocated halloc hcreate).1
              | limit p hp hgrow hlimit =>
                rw [hp, Option.getD_some] at hcreate
                exact .inl (fdElemCreate_limit hgrow hlimit hcreate)
              | occupied p hp hlive =>
                rw [hp, Option.getD_some] at hcreate
                exact .inl (fdElemCreate_occupied hlive hcreate)
            rcases hret with rfl | hpipe
            · rw [if_pos (by decide)] at h
              cases h
              exact .inl rfl
            · exact .inr hpipe

/-- The semaphore is not what a call fails for. -/
theorem Fails.waited {w v : World} {fd : ℤ} {l : FdElem ℕ} {env : Env} (h : Fails w l env)
    (hl : slot w.globals fd = .ok (some l)) (hwait : waitonSem w fd l = .ok v) : Fails v l env := by
  obtain ⟨-, hheap, -, -, hset⟩ := waitonSem_spec hwait
  have hin : InTable w.globals fd := slot_ok_iff.mp ⟨_, hl⟩
  obtain ⟨u, hu, hsize, hmax, hself, hother⟩ :=
    setSlot_spec hin (some { l with acceptSem := l.acceptSem - 1 })
  rw [hset, Except.ok.injEq] at hu
  subst hu
  cases h with
  | noChild s hs hnone => exact .noChild s (by rw [hheap, hs]) hnone
  | port hport => exact .port hport
  | pipe hpipe => exact .pipe hpipe
  | alloc halloc => exact .alloc halloc
  | limit p hp hgrow hlimit =>
    exact .limit p hp (by rw [hsize]; exact hgrow) (by rw [hsize, hmax]; exact hlimit)
  | occupied p hp hlive =>
    refine .occupied p hp ?_
    by_cases hpf : p.1 = fd
    · exact ⟨_, hpf ▸ hself⟩
    · obtain ⟨e, he⟩ := hlive
      exact ⟨e, by rw [hother p.1 hpf, he]⟩

/-- A -1 is looked up in the table, so that it is never returned. -/
theorem accept_ret {w : World} {fd : ℤ} {stale : List UInt8} {env : Env} {o : Out} {l : FdElem ℕ}
    (hl : slot w.globals fd = .ok (some l)) (h : accept w fd stale env = .ok o) : o.ret ≠ -1 := by
  obtain ⟨g, e, s, c, hout, rfl⟩ := accept_spec hl h
  intro hret
  have hneg : g.ret = -1 := by
    rw [fillIn] at hret
    split at hret <;> exact hret
  obtain ⟨f, hslot⟩ := slot_neg g.world.globals
  have hentry := entry_eq_some.mp hout.entry
  rw [hneg, hslot] at hentry
  cases hentry

/-- A FAILED ACCEPT never leaves things as they were: `accept()` reads slot -1 of the table, and before
    that the token and the connection are gone. -/
theorem failed_accept {w : World} {fd : ℤ} {l : FdElem ℕ} {env : Env} (stale : List UInt8)
    (hl : slot w.globals fd = .ok (some l)) (hf : Fails w l env) : ¬ ChangesNothing w fd stale env ∧
      ∀ g, fdPicoSocketAccept w fd env = .ok g →
        (g.ret = -1 ∨ env.pipe = none) ∧ Lost w fd l g := by
  refine ⟨?_, ?_⟩
  · rintro ⟨o, ho, hret, -⟩
    exact accept_ret hl ho hret
  · intro g hg
    obtain ⟨v, hwait, htake⟩ := fdPicoSocketAccept_eq hl hg
    obtain ⟨hpos, hheap, -, -, hset⟩ := waitonSem_spec hwait
    obtain ⟨htoken, hchild⟩ := takeChild_lost (setSlot_entry hset).1 htake
    refine ⟨takeChild_fails (hf.waited hl hwait) htake, ⟨hpos, htoken⟩, ?_⟩
    intro s c ht
    exact hchild s c ⟨by rw [hheap]; exact ht.heap, ht.accept⟩

/-- `pipe()` fails; `pipefd` happens to hold zeros. -/
def noPipe : Env := { allGranted with pipe := none }

theorem failed_accept_noPipe : ¬ ChangesNothing oneWaits 3 [] noPipe :=
  (failed_accept (l := ⟨(3, 4), 0, 0, 0, 1, 0, 50⟩) [] (by decide +kernel) (.pipe rfl)).1

/-- A process at its limit of descriptors: the connection is not handed out, and is lost. -/
theorem connection_lost : ¬ ∀ (w : World) (fd : ℤ) (l : FdElem ℕ) (env : Env) (stale : List UInt8),
    slot w.globals fd = .ok (some l) → 0 < l.acceptSem → Fails w l env →
    ChangesNothing w fd stale env := by
  intro h
  have hl : slot oneWaits.globals 3 = .ok (some ⟨(3, 4), 0, 0, 0, 1, 0, 50⟩) := by decide +kernel
  obtain ⟨o, ho, hret, -⟩ := h oneWaits 3 _ noPipe [] hl (by decide) (.pipe rfl)
  exact accept_ret hl ho hret

end FdPicotcp.Accept
