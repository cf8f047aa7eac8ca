import FdPicotcp.Address.Text
import FdPicotcp.Stack.PortTable
import FdPicotcp.Stack.TcpOutput

/-! Does `connect()` report how the handshake ended?

    `pico_socket_connect` queues a SYN and returns; what comes of it is the business of the stack
    thread: `initconn_retry` sends the SYN again or gives up, `tcp_synack` establishes the connection
    and posts `accept_sem`, `tcp_rst` deletes the socket. `fd_pico_socket_connect` returns what
    `pico_socket_connect` does, and nobody on its side waits for the semaphore.

    `Conn` is the code: a TCP descriptor with the threads that are in `connect()` on it. `World` adds
    what becomes of each call's SYN. `connect_iff` says that the value returned is the outcome exactly
    where the SYN-ACK overtakes the return. -/

namespace FdPicotcp.Connect
open Transition CInt AddressText TcpOutput
open PortTable (picoSocketStateTcpListen picoSocketStateTcpSynSent picoSocketStateTcpEstablished
  picoSocketStateTcpCloseWait picoSocketStateTcpLastAck picoSocketStateTcpFinWait1)
open Socket (picoSockEvConn picoSockEvErr)

variable {n : ℕ}

/-- A TCP socket: its output side and what the handshake reads. `tcpState` is
    `state & PICO_SOCKET_STATE_TCP`. `retransTmr` is that the timer in `retrans_tmr` will call
    `initconn_retry`, `lostTmr` counts the timers that will and are no longer in it. `doomed` and
    `freed` are before and after `socket_garbage_collect`. -/
structure ConnSocket extends OutSocket where
  tcpState : BitVec 16
  closed : Bool
  localPort : ℕ
  sndNxt : BitVec 32
  backoff : ℕ
  retransTmr : Bool
  lostTmr : ℕ
  doomed : Bool
  freed : Bool
  deriving DecidableEq

/-- `pico_socket_open`, with the entry that `fd_elem_create` makes for it. -/
def picoSocketOpen (isIpv6 : Bool) : ConnSocket where
  isIpv6 := isIpv6
  inTree := false
  bound := false
  connected := false
  shutLocal := false
  remotePort := 0
  hasDev := false
  mss := 0
  tsOk := false
  sndLast := 0
  tcpqOut := ⟨[], 16 * 1024, 0, 0⟩
  tcpState := 0
  closed := false
  localPort := 0
  sndNxt := 0
  backoff := 0
  retransTmr := false
  lostTmr := 0
  doomed := false
  freed := false

/-- A `connect()`, with what it will be answered: `rand` is what `pico_socket_high_port` returns,
    `source` that a local address is found, `dev` that a device is, `sockport` that the port is known
    or there is memory for it, `inserted` that the tree takes the socket, `syn` that there is memory
    for the first frame, `paws` what `pico_paws` returns, `shared` that another socket keeps the port
    known. -/
structure ConnectCall where
  address : List Char
  port : ℕ
  rand : ℕ
  source : Bool
  dev : Bool
  sockport : Bool
  inserted : Bool
  syn : Bool
  paws : BitVec 32
  shared : Bool
  deriving DecidableEq

/-- A segment of the peer, with its options. -/
structure Segment where
  flags : BitVec 8
  ackn : BitVec 32
  mss : Option ℕ
  timestamp : Bool
  deriving DecidableEq

abbrev picoTcpRst : BitVec 8 := 0x04
abbrev picoTcpSynack : BitVec 8 := 0x12
abbrev picoTcpRstack : BitVec 8 := 0x14

/-- `PICO_TCP_MAX_CONNECT_RETRIES` -/
def picoTcpMaxConnectRetries : ℕ := 3

/-- `pico_socket_add`: without a `pico_sockport` nothing happens. -/
def picoSocketAdd (s : ConnSocket) (sockport inserted : Bool) : ConnSocket :=
  if s.inTree ∨ sockport then { s with inTree := s.inTree || inserted, bound := true } else s

/-- `pico_socket_del`; `shared` is that another socket keeps the `pico_sockport` of the port. -/
def picoSocketDel (s : ConnSocket) (shared : Bool) : ConnSocket :=
  if s.inTree ∨ shared then
    { s with
      inTree := false
      bound := false
      connected := false
      shutLocal := false
      closed := true
      tcpState := 0
      doomed := true }
  else s

/-- `none` where there is no memory for the frame. -/
def picoTcpInitconn (s : ConnSocket) (syn : Bool) (paws : BitVec 32) : Option ConnSocket :=
  if syn then
    let sndNxt := if s.sndNxt = 0 then paws else s.sndNxt
    some { s with
      sndNxt := sndNxt
      sndLast := sndNxt
      mss := toUint16 (picoSocketGetMss s.toOutSocket - picoSizeTcphdr)
      retransTmr := true
      lostTmr := s.lostTmr + s.retransTmr.toNat }
  else none

/-- The socket afterwards, and the event masks passed to `handle_wakeup`. -/
def initconnRetry (s : ConnSocket) (syn : Bool) (paws : BitVec 32) (shared : Bool) :
    ConnSocket × List (BitVec 16) :=
  if s.tcpState ≠ picoSocketStateTcpEstablished then
    if picoTcpMaxConnectRetries < s.backoff then (picoSocketDel s shared, [picoSockEvErr])
    else
      let s := { s with backoff := s.backoff + 1 }
      ((picoTcpInitconn s syn paws).getD s, [])
  else (s, [])

/-- A timer that will call `initconn_retry` goes off: the one in `retrans_tmr` or another. -/
def timerFires (s : ConnSocket) (last : Bool) : Option ConnSocket :=
  if last then
    if s.retransTmr then some { s with retransTmr := false } else none
  else
    if 0 < s.lostTmr then some { s with lostTmr := s.lostTmr - 1 } else none

/-- What `tcp_ack` does to the output side. -/
def tcpAck (s : ConnSocket) (f : Segment) : ConnSocket :=
  let q := releaseAllUntil f.ackn s.tcpqOut.pool s.tcpqOut
  { s with
    mss := match f.mss with
      | none => s.mss
      | some mss => min s.mss mss
    tsOk := s.tsOk || f.timestamp
    tcpqOut := q
    backoff := if q.pool = [] ∨ q.frames < s.tcpqOut.frames then 0 else s.backoff }

/-- `tcp_synack`: the handshake is complete if our SYN is acknowledged. -/
def tcpSynack (s : ConnSocket) (f : Segment) : ConnSocket × List (BitVec 16) :=
  if f.ackn = s.sndNxt + 1 then
    let s := tcpAck { s with retransTmr := false } f
    ({ s with tcpState := picoSocketStateTcpEstablished, sndNxt := s.sndNxt + 1 }, [picoSockEvConn])
  else (s, [])

/-- `tcp_rst` in `SYN_SENT`, with `tcp_force_closed`. The socket is in the tree of its port. -/
def tcpRst (s : ConnSocket) (f : Segment) : ConnSocket × List (BitVec 16) :=
  if s.sndNxt + 1 = f.ackn then (picoSocketDel s true, [picoSockEvErr]) else (s, [])

/-- `pico_tcp_input` before the connection is established. Other flags than the valid ones of the
    state are answered with a reset; a listening socket makes another one of a SYN. -/
def picoTcpInput (s : ConnSocket) (f : Segment) : ConnSocket × List (BitVec 16) :=
  if s.tcpState = picoSocketStateTcpSynSent then
    if f.flags = picoTcpSynack then tcpSynack s f
    else if f.flags = picoTcpRst ∨ f.flags = picoTcpRstack then tcpRst s f
    else (s, [])
  else (s, [])

/-- `pico_socket_listen` -/
def picoSocketListen (s : ConnSocket) (backlog : ℤ) : ConnSocket :=
  if backlog < 1 ∨ ¬ s.inTree ∨ ¬ s.bound then s
  else { s with tcpState := picoSocketStateTcpListen }

/-- `pico_tcp_notify_closing`. The FIN takes a sequence number. -/
def picoTcpNotifyClosing (s : ConnSocket) : ConnSocket :=
  if s.tcpqOut.frames ≠ 0 then s
  else if s.tcpState = picoSocketStateTcpEstablished then
    { s with tcpState := picoSocketStateTcpFinWait1, sndNxt := s.sndNxt + 1 }
  else if s.tcpState = picoSocketStateTcpCloseWait then
    { s with tcpState := picoSocketStateTcpLastAck, sndNxt := s.sndNxt + 1 }
  else s

/-- `pico_socket_close`: a bound socket that is no listener waits for its FIN. -/
def picoSocketClose (s : ConnSocket) (shared : Bool) : ConnSocket :=
  if s.tcpState = picoSocketStateTcpListen then picoSocketDel s shared
  else if s.closed then s
  else if ¬ s.bound then { s with freed := true }
  else picoTcpNotifyClosing (if s.inTree ∨ shared then { s with shutLocal := true } else s)

/-- Where a thread is in `connect()`: about to look up the descriptor, to choose the ports, to add
    the socket to its port, to send the SYN, to set `SYN_SENT`, to return; or what its last
    `connect()` returned. -/
inductive Pc where
  | away
  | lookup (k : ConnectCall)
  | ports (k : ConnectCall)
  | add (k : ConnectCall)
  | initconn (k : ConnectCall)
  | alter (k : ConnectCall)
  | done (ret : ℤ)
  | returned (ret : ℤ)
  deriving DecidableEq

/-- A TCP descriptor: its socket, whether `fd_table` holds its entry, the semaphore of the entry, and
    its threads. -/
structure Conn (n : ℕ) where
  sock : ConnSocket
  inTable : Bool
  acceptSem : ℕ
  thread : Fin n → Pc

/-- A call of a thread, or a step of the stack. -/
inductive Act (n : ℕ) where
  | connect (p : Fin n) (k : ConnectCall)
  | thread (p : Fin n)
  | write (buf : List UInt8) (alloc : ℕ → Alloc)
  | bind (port : ℕ) (sockport inserted : Bool)
  | listen (backlog : ℤ)
  | close (shared : Bool)
  | segment (f : Segment)
  | retry (last syn : Bool) (paws : BitVec 32) (shared : Bool)
  /-- what a connection does after its handshake; `reset` is that it ends with `EV_ERR` -/
  | life (s : ConnSocket) (reset : Bool)
  | collect

/-- The thread `p` goes on at `k`, and the socket is `s`. -/
def Conn.goto (c : Conn n) (p : Fin n) (k : Pc) (s : ConnSocket) : Conn n :=
  { c with sock := s, thread := Function.update c.thread p k }

/-- Whether the text is an address of the socket's family. -/
def stringToAddress (s : ConnSocket) (address : List Char) : Bool :=
  if s.isIpv6 then (picoStringToIpv6 address).isOk else (picoStringToIpv4 address).isSome

/-- The socket when `pico_socket_connect` has set its ports. -/
def connectPorts (s : ConnSocket) (k : ConnectCall) : ConnSocket :=
  { s with
    remotePort := k.port
    localPort := if s.localPort = 0 then k.rand else s.localPort }

/-- `pico_socket_alter_state` at the end of `pico_socket_connect`. -/
def connectAlter (s : ConnSocket) (shared : Bool) : ConnSocket :=
  if s.inTree ∨ shared then
    { s with connected := true, closed := false, tcpState := s.tcpState ||| picoSocketStateTcpSynSent }
  else s

/-- `none` also where the code reads a socket that has been freed. -/
def threadStep (c : Conn n) (p : Fin n) : Option (Conn n) :=
  match c.thread p with
  | .away | .returned _ => none
  | .lookup k =>
    if ¬ c.inTable then some (c.goto p (.done (-1)) c.sock)
    else if ¬ stringToAddress c.sock k.address then some (c.goto p (.done (-1)) c.sock)
    else some (c.goto p (.ports k) c.sock)
  | .ports k =>
    if c.sock.freed then none
    else if k.port = 0 then some (c.goto p (.done (-1)) c.sock)
    else
      let s := connectPorts c.sock k
      if s.localPort = 0 ∨ ¬ k.source then some (c.goto p (.done (-1)) s)
      else some (c.goto p (.add k) { s with hasDev := k.dev })
  | .add k =>
    if c.sock.freed then none
    else some (c.goto p (.initconn k) (picoSocketAdd c.sock k.sockport k.inserted))
  | .initconn k =>
    if c.sock.freed then none
    else match picoTcpInitconn c.sock k.syn k.paws with
      | none => some (c.goto p (.done (-1)) c.sock)
      | some s => some (c.goto p (.alter k) s)
  | .alter k =>
    if c.sock.freed then none
    else some (c.goto p (.done 0) (connectAlter c.sock k.shared))
  | .done ret => some (c.goto p (.returned ret) c.sock)

/-- `fd_pico_socket_write`, with what it returns. -/
def fdPicoSocketWrite (c : Conn n) (buf : List UInt8) (alloc : ℕ → Alloc) : Option (Conn n × ℤ) :=
  if ¬ c.inTable then some (c, -1)
  else if c.sock.freed then none
  else
    let (o, ret) := write c.sock.toOutSocket buf alloc
    some ({ c with sock := { c.sock with toOutSocket := o } }, ret)

/-- A call on the descriptor that only changes its socket. -/
def onSocket (c : Conn n) (f : ConnSocket → ConnSocket) : Option (Conn n) :=
  if ¬ c.inTable then some c
  else if c.sock.freed then none
  else some { c with sock := f c.sock }

/-- `unlock_sem`: at most one token. -/
def unlockSem (v : ℕ) : ℕ := if 0 < v then v else v + 1

/-- `handle_wakeup` for each mask. -/
def handleWakeup (c : Conn n) (evs : List (BitVec 16)) : Conn n :=
  if c.inTable ∧ picoSockEvConn ∈ evs then { c with acceptSem := unlockSem c.acceptSem } else c

/-- The connection goes on from `s` to `t`, and does not become established again. -/
def Continues (s t : ConnSocket) : Prop :=
  picoSocketStateTcpSynSent < s.tcpState ∧ t.freed = s.freed ∧
    (t.tcpState = picoSocketStateTcpEstablished → s.tcpState = picoSocketStateTcpEstablished)

instance (s t : ConnSocket) : Decidable (Continues s t) := inferInstanceAs (Decidable (_ ∧ _))

/-- A step of the stack and the callbacks it makes. -/
def stackStep (c : Conn n) (r : ConnSocket × List (BitVec 16)) : Conn n × List (BitVec 16) :=
  (handleWakeup { c with sock := r.1 } r.2, r.2)

/-- The descriptor afterwards, and the masks that `handle_wakeup` was called with. -/
def Conn.step (c : Conn n) : Act n → Option (Conn n × List (BitVec 16))
  | .connect p k =>
    match c.thread p with
    | .away | .returned _ => some (c.goto p (.lookup k) c.sock, [])
    | _ => none
  | .thread p => (threadStep c p).map (·, [])
  | .write buf alloc => (fdPicoSocketWrite c buf alloc).map (·.1, [])
  | .bind port sockport inserted =>
    (onSocket c fun s => picoSocketAdd { s with localPort := port } sockport inserted).map (·, [])
  | .listen backlog => (onSocket c (picoSocketListen · backlog)).map (·, [])
  | .close shared =>
    (onSocket c (picoSocketClose · shared)).map fun c => ({ c with inTable := false }, [])
  | .segment f =>
    if c.sock.freed ∨ ¬ c.sock.inTree ∨ picoSocketStateTcpSynSent < c.sock.tcpState then none
    else some (stackStep c (picoTcpInput c.sock f))
  | .retry last syn paws shared =>
    if c.sock.freed then none
    else (timerFires c.sock last).map fun s => stackStep c (initconnRetry s syn paws shared)
  | .life s reset =>
    if c.sock.freed ∨ ¬ Continues c.sock s then none
    else some (stackStep c (s, if reset then [picoSockEvErr] else []))
  | .collect =>
    if c.sock.doomed ∧ ¬ c.sock.freed then some ({ c with sock := { c.sock with freed := true } }, [])
    else none

/-! What becomes of a call's SYN -/

/-- How the stack takes what comes in. -/
inductive Answer where | synAck | reset | timeout
  deriving DecidableEq

/-- A SYN-ACK or a reset that acknowledges the SYN of a socket in `SYN_SENT`, the end of the last
    retry, or the end of a connection that was there before. -/
def answerOf (s : ConnSocket) : Act n → Option Answer
  | .segment f =>
    if s.tcpState = picoSocketStateTcpSynSent ∧ f.ackn = s.sndNxt + 1 then
      if f.flags = picoTcpSynack then some .synAck
      else if f.flags = picoTcpRst ∨ f.flags = picoTcpRstack then some .reset
      else none
    else none
  | .retry .. =>
    if s.tcpState ≠ picoSocketStateTcpEstablished ∧ picoTcpMaxConnectRetries < s.backoff then
      some .timeout
    else none
  | .life _ true => some .reset
  | _ => none

/-- Since the SYN of the call: the socket has become established, its failure has been announced
    before that, and the first of the answers. -/
structure Seen where
  established : Bool
  failed : Bool
  answer : Option Answer
  deriving DecidableEq

/-- Nothing has been seen yet. -/
def Seen.blank : Seen := ⟨false, false, none⟩

/-- The connection is established by this step. -/
def Becomes (s t : ConnSocket) : Prop :=
  s.tcpState ≠ picoSocketStateTcpEstablished ∧ t.tcpState = picoSocketStateTcpEstablished

instance (s t : ConnSocket) : Decidable (Becomes s t) := inferInstanceAs (Decidable (_ ∧ _))

/-- What a thread in `connect()` has seen after one more step. -/
def Seen.next (o : Seen) (s t : ConnSocket) (evs : List (BitVec 16)) (a : Option Answer) : Seen where
  established := o.established || decide (Becomes s t)
  failed := o.failed || (! o.established && decide (picoSockEvErr ∈ evs))
  answer := o.answer.or a

/-- `seen` is kept for the calls that have sent their SYN, until they return. `told` is that a
    `connect()` has returned 0, `existed` that the socket has been established, `stray` counts the
    bytes that `write()` has accepted while it is told and has not. -/
structure World (n : ℕ) extends Conn n where
  seen : Fin n → Seen
  told : Bool
  existed : Bool
  stray : ℕ

/-- A thread sees what happens from its `SYN_SENT` on until it returns. -/
def nextSeen (w : World n) (a : Act n) (c : Conn n) (evs : List (BitVec 16)) (p : Fin n) : Seen :=
  match w.thread p with
  | .alter _ | .done _ => (w.seen p).next w.sock c.sock evs (answerOf w.sock a)
  | .returned _ => w.seen p
  | .away | .lookup _ | .ports _ | .add _ | .initconn _ => .blank

/-- Some `connect()` has returned 0. -/
def nextTold (w : World n) : Act n → Bool
  | .thread p => w.told || decide (w.thread p = .done 0)
  | _ => w.told

/-- The bytes that a `write()` has been taken for. -/
def accepted (w : World n) : Act n → ℕ
  | .write buf alloc => ((fdPicoSocketWrite w.toConn buf alloc).map (·.2.toNat)).getD 0
  | _ => 0

/-- The step of the descriptor, and what is recorded of it. -/
def World.next (w : World n) (a : Act n) (c : Conn n) (evs : List (BitVec 16)) : World n where
  toConn := c
  seen := nextSeen w a c evs
  told := nextTold w a
  existed := w.existed || decide (Becomes w.sock c.sock)
  stray := w.stray + if w.told ∧ ¬ w.existed then accepted w a else 0

/-- The world moves as its descriptor does. -/
def step (w : World n) (a : Act n) : Option (World n) :=
  (w.toConn.step a).map fun r => w.next a r.1 r.2

/-- `socket()` has returned the descriptor. -/
def begin (isIpv6 : Bool) (n : ℕ) : World n :=
  ⟨⟨picoSocketOpen isIpv6, true, 0, fun _ => .away⟩, fun _ => .blank, false, false, 0⟩

/-- 0 only from a `connect()` that has established the connection, -1 from one that was refused or
    timed out, and no bytes accepted for a connection that never existed. -/
structure Reports (w : World n) : Prop where
  zero : ∀ p, w.thread p = .returned 0 → (w.seen p).established
  failure : ∀ p ret, w.thread p = .returned ret → (w.seen p).failed → ret = -1
  written : w.stray = 0

/-- A `connect()` returns 0 after the SYN-ACK of its SYN has come in. -/
def InTime (w : World n) : Act n → Prop
  | .thread p => w.thread p = .done 0 → (w.seen p).answer = some .synAck
  | _ => True

instance (w : World n) : DecidablePred (InTime w)
  | .thread _ => inferInstanceAs (Decidable (_ → _))
  | .connect .. | .write .. | .bind .. | .listen .. | .close .. | .segment .. | .retry .. | .life ..
  | .collect => isTrue trivial

/-! Steps -/

theorem synSent_ne_established (t : BitVec 16) :
    t ||| picoSocketStateTcpSynSent ≠ picoSocketStateTcpEstablished := by
  intro h
  have hbit := congrArg (·.getLsbD 9) h
  simp at hbit

theorem not_becomes_of_eq {s t : ConnSocket} (h : t.tcpState = s.tcpState) : ¬ Becomes s t :=
  fun hb => hb.1 (h ▸ hb.2)

theorem picoSocketAdd_tcpState (s : ConnSocket) (sockport inserted : Bool) :
    (picoSocketAdd s sockport inserted).tcpState = s.tcpState := by
  rw [picoSocketAdd]
  split <;> rfl

theorem picoTcpInitconn_tcpState {s t : ConnSocket} {syn : Bool} {paws : BitVec 32}
    (h : picoTcpInitconn s syn paws = some t) : t.tcpState = s.tcpState := by
  rw [picoTcpInitconn] at h
  split at h
  · cases h
    rfl
  · cases h

theorem picoSocketDel_not_becomes (s : ConnSocket) (shared : Bool) :
    ¬ Becomes s (picoSocketDel s shared) := by
  rw [picoSocketDel]
  split
  · intro hb
    have hzero := hb.2
    simp at hzero
  · exact not_becomes_of_eq rfl
/-- How `connect()` goes on. -/
inductive Next : Pc → Pc → Prop
  | lookup (k : ConnectCall) : Next (.lookup k) (.ports k)
  | ports (k : ConnectCall) : Next (.ports k) (.add k)
  | add (k : ConnectCall) : Next (.add k) (.initconn k)
  | initconn (k : ConnectCall) : Next (.initconn k) (.alter k)
  | alter (k : ConnectCall) : Next (.alter k) (.done 0)
  | unknown (k : ConnectCall) : Next (.lookup k) (.done (-1))
  | unreachable (k : ConnectCall) : Next (.ports k) (.done (-1))
  | noFrame (k : ConnectCall) : Next (.initconn k) (.done (-1))
  | done (ret : ℤ) : Next (.done ret) (.returned ret)

/-- STEP of a thread: it goes on, and the socket does not become established. -/
theorem threadStep_spec {c c' : Conn n} {p : Fin n} (hs : threadStep c p = some c') :
    ∃ k s, c' = c.goto p k s ∧ Next (c.thread p) k ∧ ¬ Becomes c.sock s := by
  have hsame : ¬ Becomes c.sock c.sock := not_becomes_of_eq rfl
  rw [threadStep.eq_def] at hs
  split at hs
  case h_1 | h_2 => cases hs
  case h_3 k hpc =>
    rw [hpc]
    split at hs
    · cases hs
      exact ⟨_, _, rfl, .unknown k, hsame⟩
    split at hs
    · cases hs
      exact ⟨_, _, rfl, .unknown k, hsame⟩
    · cases hs
      exact ⟨_, _, rfl, .lookup k, hsame⟩
  case h_4 k hpc =>
    rw [hpc]
    split at hs
    · cases hs
    split at hs
    · cases hs
      exact ⟨_, _, rfl, .unreachable k, hsame⟩
    dsimp only at hs
    split at hs
    · cases hs
      exact ⟨_, _, rfl, .unreachable k, not_becomes_of_eq rfl⟩
    · cases hs
      exact ⟨_, _, rfl, .ports k, not_becomes_of_eq rfl⟩
  case h_5 k hpc =>
    rw [hpc]
    split at hs
    · cases hs
    cases hs
    exact ⟨_, _, rfl, .add k, not_becomes_of_eq (picoSocketAdd_tcpState ..)⟩
  case h_6 k hpc =>
    rw [hpc]
    split at hs
    · cases hs
    split at hs
    · cases hs
      exact ⟨_, _, rfl, .noFrame k, hsame⟩
    · next hinit =>
      cases hs
      exact ⟨_, _, rfl, .initconn k, not_becomes_of_eq (picoTcpInitconn_tcpState hinit)⟩
  case h_7 k hpc =>
    rw [hpc]
    split at hs
    · cases hs
    cases hs
    refine ⟨_, _, rfl, .alter k, ?_⟩
    rw [connectAlter]
    split
    · exact fun hb => synSent_ne_established _ hb.2
    · exact hsame
  case h_8 ret hpc =>
    rw [hpc]
    cases hs
    exact ⟨_, _, rfl, .done ret, hsame⟩

/-- What the answer says of a step in which the socket becomes established or its failure is
    announced. -/
def Effect (becomes err : Prop) : Option Answer → Prop
  | none => ¬ becomes ∧ ¬ err
  | some .synAck => becomes ∧ ¬ err
  | some .reset | some .timeout => ¬ becomes ∧ err

theorem picoTcpInput_effect (s : ConnSocket) (f : Segment) :
    Effect (Becomes s (picoTcpInput s f).1) (picoSockEvErr ∈ (picoTcpInput s f).2)
      (answerOf s (.segment f : Act n)) := by
  have hquiet : Effect (Becomes s s) (picoSockEvErr ∈ ([] : List (BitVec 16))) none :=
    ⟨not_becomes_of_eq rfl, by simp⟩
  simp only [picoTcpInput, answerOf]
  by_cases hsent : s.tcpState = picoSocketStateTcpSynSent
  case neg => simpa only [hsent, false_and, if_false] using hquiet
  by_cases hack : f.ackn = s.sndNxt + 1
  case neg =>
    have hno : ¬ s.sndNxt + 1 = f.ackn := fun h => hack h.symm
    simp only [hsent, hack, and_false, if_true, if_false, tcpSynack, tcpRst, hno]
    split
    · exact hquiet
    · split <;> exact hquiet
  simp only [hsent, hack, and_self, if_true, tcpSynack, tcpRst]
  split
  · refine ⟨⟨?_, rfl⟩, by simp⟩
    rw [hsent]
    decide
  · split
    · exact ⟨picoSocketDel_not_becomes s true, by simp⟩
    · exact hquiet

theorem initconnRetry_effect (s : ConnSocket) (last syn : Bool) (paws : BitVec 32) (shared : Bool) :
    Effect (Becomes s (initconnRetry s syn paws shared).1)
      (picoSockEvErr ∈ (initconnRetry s syn paws shared).2)
      (answerOf s (.retry last syn paws shared : Act n)) := by
  simp only [initconnRetry, answerOf]
  split
  case isFalse h =>
    rw [if_neg fun hc => h hc.1]
    exact ⟨not_becomes_of_eq rfl, by simp⟩
  case isTrue h =>
    split
    case isTrue hlast =>
      rw [if_pos ⟨h, hlast⟩]
      exact ⟨picoSocketDel_not_becomes s shared, by simp⟩
    case isFalse hlast =>
      rw [if_neg fun hc => hlast hc.2]
      refine ⟨not_becomes_of_eq ?_, by simp⟩
      cases hinit : picoTcpInitconn { s with backoff := s.backoff + 1 } syn paws with
      | none => rfl
      | some t =>
        have ht := picoTcpInitconn_tcpState hinit
        exact ht

theorem picoSocketClose_not_becomes (s : ConnSocket) (shared : Bool) :
    ¬ Becomes s (picoSocketClose s shared) := by
  have hclosing : ∀ t : ConnSocket, t.tcpState = s.tcpState → ¬ Becomes s (picoTcpNotifyClosing t) := by
    intro t ht hb
    have hend := hb.2
    rw [picoTcpNotifyClosing] at hend
    split at hend
    · exact hb.1 (ht ▸ hend)
    split at hend
    · simp at hend
    split at hend
    · simp at hend
    · exact hb.1 (ht ▸ hend)
  rw [picoSocketClose]
  split
  · exact picoSocketDel_not_becomes s shared
  split
  · exact not_becomes_of_eq rfl
  split
  · exact not_becomes_of_eq rfl
  · exact hclosing _ (by split <;> rfl)

theorem timerFires_spec {s t : ConnSocket} {last : Bool} (h : timerFires s last = some t) :
    t.tcpState = s.tcpState ∧ t.backoff = s.backoff := by
  rw [timerFires] at h
  split at h <;> split at h <;> cases h <;> exact ⟨rfl, rfl⟩

/-- What a step does. -/
structure Outcome (c : Conn n) (a : Act n) (c' : Conn n) (evs : List (BitVec 16)) : Prop where
  effect : Effect (Becomes c.sock c'.sock) (picoSockEvErr ∈ evs) (answerOf c.sock a)
  /-- a thread goes on, or begins a call -/
  place : ∀ q, c'.thread q = c.thread q ∨ (a = .thread q ∧ Next (c.thread q) (c'.thread q)) ∨
    ∃ k, a = .connect q k ∧ c'.thread q = .lookup k
  /-- nobody takes the semaphore -/
  sem : c.acceptSem ≤ c'.acceptSem

theorem goto_thread (c : Conn n) (p q : Fin n) (k : Pc) (s : ConnSocket) :
    (c.goto p k s).thread q = c.thread q ∨ p = q ∧ (c.goto p k s).thread q = k := by
  by_cases hq : q = p
  · subst hq
    exact .inr ⟨rfl, Function.update_self ..⟩
  · exact .inl (Function.update_of_ne hq ..)

theorem Outcome.onSocket {c c' : Conn n} {a : Act n} {f : ConnSocket → ConnSocket} {inTable : Bool}
    (h : onSocket c f = some c') (hf : ∀ s, ¬ Becomes s (f s)) (ha : answerOf c.sock a = none) :
    Outcome c a { c' with inTable } [] := by
  have hquiet : ∀ d : Conn n, ¬ Becomes c.sock d.sock →
      Effect (Becomes c.sock d.sock) (picoSockEvErr ∈ ([] : List (BitVec 16))) (answerOf c.sock a) := by
    intro d hb
    rw [ha]
    exact ⟨hb, by simp⟩
  rw [Connect.onSocket] at h
  split at h
  · cases h
    exact ⟨hquiet c (not_becomes_of_eq rfl), fun _ => .inl rfl, le_rfl⟩
  split at h
  · cases h
  · cases h
    exact ⟨hquiet { c with sock := f c.sock } (hf c.sock), fun _ => .inl rfl, le_rfl⟩

theorem Outcome.stack {c : Conn n} {a : Act n} {s : ConnSocket} {evs : List (BitVec 16)}
    (h : Effect (Becomes c.sock s) (picoSockEvErr ∈ evs) (answerOf c.sock a)) :
    Outcome c a (stackStep c (s, evs)).1 evs := by
  simp only [stackStep, handleWakeup]
  split
  · refine ⟨h, fun _ => .inl rfl, ?_⟩
    simp only [unlockSem]
    split
    · exact le_rfl
    · exact Nat.le_succ _
  · exact ⟨h, fun _ => .inl rfl, le_rfl⟩

/-- STEP: what a step does to the socket is the answer. -/
theorem step_outcome {c c' : Conn n} {a : Act n} {evs : List (BitVec 16)}
    (hs : c.step a = some (c', evs)) : Outcome c a c' evs := by
  have hquiet : ∀ s, ¬ Becomes c.sock s →
      Effect (Becomes c.sock s) (picoSockEvErr ∈ ([] : List (BitVec 16))) none :=
    fun s hb => ⟨hb, by simp⟩
  cases a with
  | connect p k =>
    simp only [Conn.step] at hs
    split at hs
    case h_3 => cases hs
    all_goals
      cases hs
      refine ⟨hquiet _ (not_becomes_of_eq rfl), fun q => ?_, le_rfl⟩
      rcases goto_thread c p q (.lookup k) c.sock with h | ⟨rfl, h⟩
      · exact .inl h
      · exact .inr (.inr ⟨k, rfl, h⟩)
  | thread p =>
    simp only [Conn.step, Option.map_eq_some_iff, Prod.mk.injEq] at hs
    obtain ⟨d, hs, rfl, rfl⟩ := hs
    obtain ⟨k, s, rfl, hnext, hb⟩ := threadStep_spec hs
    refine ⟨hquiet s hb, fun q => ?_, le_rfl⟩
    rcases goto_thread c p q k s with h | ⟨rfl, h⟩
    · exact .inl h
    · exact .inr (.inl ⟨rfl, by rw [h]; exact hnext⟩)
  | write buf alloc =>
    simp only [Conn.step, Option.map_eq_some_iff, Prod.mk.injEq] at hs
    obtain ⟨r, hs, rfl, rfl⟩ := hs
    rw [fdPicoSocketWrite] at hs
    split at hs
    · cases hs
      exact ⟨hquiet _ (not_becomes_of_eq rfl), fun _ => .inl rfl, le_rfl⟩
    split at hs
    · cases hs
    · cases hs
      exact ⟨hquiet _ (not_becomes_of_eq rfl), fun _ => .inl rfl, le_rfl⟩
  | bind port sockport inserted =>
    simp only [Conn.step, Option.map_eq_some_iff, Prod.mk.injEq] at hs
    obtain ⟨d, hs, rfl, rfl⟩ := hs
    change Outcome c _ { d with inTable := d.inTable } []
    refine .onSocket hs ?_ rfl
    exact fun s => not_becomes_of_eq (picoSocketAdd_tcpState { s with localPort := port } _ _)
  | listen backlog =>
    simp only [Conn.step, Option.map_eq_some_iff, Prod.mk.injEq] at hs
    obtain ⟨d, hs, rfl, rfl⟩ := hs
    change Outcome c _ { d with inTable := d.inTable } []
    refine .onSocket hs ?_ rfl
    intro s
    rw [picoSocketListen]
    split
    · exact not_becomes_of_eq rfl
    · intro hb
      have hlisten := hb.2
      simp at hlisten
  | close shared =>
    simp only [Conn.step, Option.map_eq_some_iff, Prod.mk.injEq] at hs
    obtain ⟨d, hs, rfl, rfl⟩ := hs
    exact .onSocket hs (picoSocketClose_not_becomes · shared) rfl
  | segment f =>
    simp only [Conn.step] at hs
    split at hs
    · cases hs
    · cases hs
      exact .stack (picoTcpInput_effect c.sock f)
  | retry last syn paws shared =>
    simp only [Conn.step] at hs
    split at hs
    · cases hs
    simp only [Option.map_eq_some_iff] at hs
    obtain ⟨s, hs, he⟩ := hs
    cases he
    obtain ⟨hstate, hbackoff⟩ := timerFires_spec hs
    have heffect := initconnRetry_effect (n := n) s last syn paws shared
    simp only [answerOf, hstate, hbackoff, Becomes] at heffect
    exact .stack heffect
  | life s reset =>
    simp only [Conn.step] at hs
    split at hs
    · cases hs
    · next hc =>
      have hb : ¬ Becomes c.sock s := by
        intro hb
        exact hb.1 ((not_not.mp (not_or.mp hc).2).2.2 hb.2)
      cases hs
      refine .stack ?_
      cases reset with
      | false => exact ⟨hb, by simp⟩
      | true => exact ⟨hb, by simp⟩
  | collect =>
    simp only [Conn.step] at hs
    split at hs
    · cases hs
      exact ⟨hquiet _ (not_becomes_of_eq rfl), fun _ => .inl rfl, le_rfl⟩
    · cases hs

/-! Runs -/

/-- The answer tells what has been seen. -/
def Tracks (o : Seen) : Prop :=
  match o.answer with
  | none => o.established = false ∧ o.failed = false
  | some .synAck => o.established = true ∧ o.failed = false
  | some .reset | some .timeout => o.failed = true

theorem Tracks.next {o : Seen} {s t : ConnSocket} {evs : List (BitVec 16)} {a : Option Answer}
    (h : Tracks o) (he : Effect (Becomes s t) (picoSockEvErr ∈ evs) a) :
    Tracks (o.next s t evs a) := by
  obtain ⟨est, failed, answer⟩ := o
  cases answer with
  | none =>
    obtain ⟨rfl, rfl⟩ : est = false ∧ failed = false := h
    cases a with
    | none => exact ⟨by simpa [Seen.next] using he.1, by simpa [Seen.next] using he.2⟩
    | some a =>
      cases a with
      | synAck => exact ⟨by simpa [Seen.next] using he.1, by simpa [Seen.next] using he.2⟩
      | reset | timeout => simpa [Tracks, Seen.next] using he.2
  | some answer =>
    cases answer with
    | synAck =>
      obtain ⟨rfl, rfl⟩ : est = true ∧ failed = false := h
      exact ⟨rfl, rfl⟩
    | reset | timeout =>
      obtain rfl : failed = true := h
      rfl

/-- The SYN-ACK was the answer exactly if the socket became established without a failure. -/
theorem Tracks.synAck_iff {o : Seen} (h : Tracks o) :
    o.answer = some .synAck ↔ o.established = true ∧ o.failed = false := by
  rw [Tracks] at h
  split at h
  · next ha => simp [ha, h.1]
  · next ha => simp [ha, h]
  · next ha => simp [ha, h]
  · next ha => simp [ha, h]

/-- What every step keeps. -/
structure Inv (w : World n) : Prop where
  tracks : ∀ p, Tracks (w.seen p)
  value : ∀ p ret, w.thread p = .done ret → ret = 0 ∨ ret = -1
  ever : ∀ p, (w.seen p).established = true → w.existed = true
  honest : Reports w → w.told = true → w.existed = true

theorem inv_begin (isIpv6 : Bool) : Inv (begin isIpv6 n) :=
  ⟨fun _ => ⟨rfl, rfl⟩, fun _ _ => nofun, fun _ => nofun, fun _ => nofun⟩

theorem reports_begin (isIpv6 : Bool) : Reports (begin isIpv6 n) :=
  ⟨fun _ => nofun, fun _ _ => nofun, rfl⟩

section Step
variable {w : World n} {a : Act n} {c : Conn n} {evs : List (BitVec 16)}

theorem nextSeen_tracks (h : Inv w) (hs : w.toConn.step a = some (c, evs)) (p : Fin n) :
    Tracks (nextSeen w a c evs p) := by
  rw [nextSeen]
  split
  · exact (h.tracks p).next (step_outcome hs).effect
  · exact (h.tracks p).next (step_outcome hs).effect
  · exact h.tracks p
  all_goals exact ⟨rfl, rfl⟩

theorem next_seen (p : Fin n) : (w.next a c evs).seen p = nextSeen w a c evs p := rfl

theorem next_ever (h : Inv w) {p : Fin n} (he : ((w.next a c evs).seen p).established = true) :
    (w.next a c evs).existed = true := by
  have hnext : ∀ o, ((w.seen p).next w.sock c.sock evs o).established = true →
      (w.next a c evs).existed = true := by
    intro o ho
    simp only [Seen.next, World.next, Bool.or_eq_true] at ho ⊢
    exact ho.imp_left (h.ever p)
  rw [next_seen, nextSeen] at he
  split at he
  · exact hnext _ he
  · exact hnext _ he
  · rw [World.next, h.ever p he, Bool.true_or]
  all_goals cases he

/-- A call that is about to return 0 has the answer it will have when it has returned. -/
theorem nextSeen_done {p : Fin n} (hpc : w.thread p = .done 0) :
    (nextSeen w (.thread p) c evs p).answer = (w.seen p).answer := by
  rw [nextSeen, hpc]
  simp [Seen.next, answerOf]

/-- A call that has returned a value did so before, or does so in this step. -/
theorem returned_next (hs : w.toConn.step a = some (c, evs)) {p : Fin n} {ret : ℤ}
    (hpc : c.thread p = .returned ret) :
    (w.thread p = .returned ret ∧ nextSeen w a c evs p = w.seen p) ∨
      (a = .thread p ∧ w.thread p = .done ret) := by
  rcases (step_outcome hs).place p with hsame | ⟨ha, hnext⟩ | ⟨k, -, hk⟩
  · have hold : w.thread p = .returned ret := hsame.symm.trans hpc
    exact .inl ⟨hold, by rw [nextSeen, hold]⟩
  · rw [hpc] at hnext
    cases hw : w.thread p <;> rw [hw] at hnext <;> cases hnext
    exact .inr ⟨ha, rfl⟩
  · rw [hk] at hpc
    cases hpc

/-- The call that was about to return has returned. -/
theorem returned_done {p : Fin n} (hs : w.toConn.step (.thread p) = some (c, evs)) {ret : ℤ}
    (hpc : w.thread p = .done ret) : c.thread p = .returned ret := by
  simp only [Conn.step, Option.map_eq_some_iff, Prod.mk.injEq] at hs
  obtain ⟨d, hs, rfl, -⟩ := hs
  obtain ⟨k, s, rfl, hnext, -⟩ := threadStep_spec hs
  rw [hpc] at hnext
  cases hnext
  exact Function.update_self ..

theorem inv_next (h : Inv w) (hr : Reports w) (hs : w.toConn.step a = some (c, evs)) :
    Inv (w.next a c evs) := by
  refine ⟨nextSeen_tracks h hs, ?_, fun p => next_ever h, ?_⟩
  · intro p ret hpc
    rcases (step_outcome hs).place p with hsame | ⟨-, hnext⟩ | ⟨k, -, hk⟩
    · exact h.value p ret (hsame.symm.trans hpc)
    · have hpc : c.thread p = .done ret := hpc
      rw [hpc] at hnext
      cases hw : w.thread p <;> rw [hw] at hnext <;> cases hnext
      all_goals simp
    · exact absurd (hk.symm.trans hpc) nofun
  · intro hr' htold
    have hever : w.told = true → (w.next a c evs).existed = true := by
      intro htold
      rw [World.next, h.honest hr htold, Bool.true_or]
    cases a with
    | thread p =>
      simp only [World.next, nextTold, Bool.or_eq_true, decide_eq_true_eq] at htold
      rcases htold with htold | hpc
      · exact hever htold
      · exact next_ever h (hr'.zero p (returned_done hs hpc))
    | connect | write | bind | listen | close | segment | retry | life | collect => exact hever htold

/-- Reports stay true exactly if the call that returns 0, if one does, is in time. -/
theorem reports_next (h : Inv w) (hr : Reports w) (hs : w.toConn.step a = some (c, evs)) :
    Reports (w.next a c evs) ↔ InTime w a := by
  have htracks := nextSeen_tracks h hs
  constructor
  · intro hr'
    cases a with
    | thread p =>
      intro hpc
      have hret := returned_done hs hpc
      rw [← nextSeen_done hpc, (htracks p).synAck_iff]
      refine ⟨hr'.zero p hret, ?_⟩
      by_contra hfailed
      have hbad := hr'.failure p 0 hret (eq_true_of_ne_false hfailed)
      simp at hbad
    | connect | write | bind | listen | close | segment | retry | life | collect => trivial
  · intro hin
    have hzero : ∀ p, a = .thread p → w.thread p = .done 0 →
        (nextSeen w a c evs p).established = true ∧ (nextSeen w a c evs p).failed = false := by
      rintro p rfl hpc
      rw [← (htracks p).synAck_iff, nextSeen_done hpc]
      exact hin hpc
    refine ⟨?_, ?_, ?_⟩
    · intro p hpc
      rcases returned_next hs hpc with ⟨hold, hseen⟩ | ⟨ha, hdone⟩
      · rw [next_seen, hseen]
        exact hr.zero p hold
      · exact (hzero p ha hdone).1
    · intro p ret hpc hfailed
      rcases returned_next hs hpc with ⟨hold, hseen⟩ | ⟨ha, hdone⟩
      · rw [next_seen, hseen] at hfailed
        exact hr.failure p ret hold hfailed
      · rcases h.value p ret hdone with rfl | rfl
        · exact absurd hfailed (ne_true_of_eq_false (hzero p ha hdone).2)
        · rfl
    · have hnot : ¬ (w.told = true ∧ ¬ w.existed = true) := fun hc => hc.2 (h.honest hr hc.1)
      rw [World.next, if_neg hnot, hr.written]

end Step

/-- A CONNECT THAT KNOWS: in every run, every `connect()` reports the outcome and no byte is accepted
    for a connection that never existed exactly if every call that returns 0 returns after the SYN-ACK
    of its SYN has come in. -/
theorem connect_iff {isIpv6 : Bool} {as : List (Act n)} {w : World n}
    (hr : run step (begin isIpv6 n) as = some w) :
    Everywhere step Reports (begin isIpv6 n) as ↔ Meets step InTime (begin isIpv6 n) as := by
  refine everywhere_iff_meets (I := Inv) ?_ (inv_begin isIpv6) (reports_begin isIpv6) hr
  intro w a w' h hp hs
  rw [step, Option.map_eq_some_iff] at hs
  obtain ⟨⟨c, evs⟩, hc, rfl⟩ := hs
  exact ⟨inv_next h hp hc, reports_next h hp hc⟩

/-- A call whose SYN gets out. -/
def reachable : ConnectCall :=
  ⟨['1', '0', '.', '0', '.', '0', '.', '1'], 80, 4000, true, true, true, true, true, 7, false⟩

/-- The call returns as soon as `SYN_SENT` is set, a byte is written, and then the peer refuses. -/
def refusedLater : List (Act 1) :=
  .connect 0 reachable :: List.replicate 6 (.thread 0) ++
    [.write [1] fun _ => ⟨true, true⟩, .segment ⟨picoTcpRstack, 8, none, false⟩]

theorem refusedLater_runs : (run step (begin false 1) refusedLater).isSome := by decide +kernel

/-- The byte is accepted, and the connection has never existed. -/
theorem accepts_stray : ¬ ∀ as w, run step (begin false 1) as = some w → Reports w := by
  intro h
  have hone : (Option.get _ refusedLater_runs).stray = 1 := by decide +kernel
  have hzero := (h refusedLater _ (Option.some_get refusedLater_runs).symm).written
  rw [hone] at hzero
  exact absurd hzero (by decide)

/-- The SYN-ACK comes in before the call returns. -/
def answered : List (Act 1) :=
  .connect 0 reachable :: List.replicate 5 (.thread 0) ++
    [.segment ⟨picoTcpSynack, 8, some 1460, false⟩, .thread 0, .write [1] fun _ => ⟨true, true⟩]

theorem answered_runs : (run step (begin false 1) answered).isSome := by decide +kernel

theorem connect_iff_answered : Everywhere step Reports (begin false 1) answered :=
  (connect_iff (Option.some_get answered_runs).symm).mpr (by decide +kernel)

/-- The SYN is out, and the thread has not begun another call. -/
def Committed (pc : Pc) : Prop := (∃ k, pc = .alter k) ∨ pc = .done 0 ∨ pc = .returned 0

/-- BLIND: once its SYN is out a `connect()` returns 0, whatever comes in. -/
theorem committed_run {p : Fin n} {as : List (Act n)} {w w' : World n} (h : Committed (w.thread p))
    (hm : Meets step (fun _ a => ∀ k, a ≠ .connect p k) w as) (hr : run step w as = some w') :
    Committed (w'.thread p) := by
  refine run_keeps (I := fun w : World n => Committed (w.thread p)) ?_ h hm hr
  intro w a w' h hother hs
  rw [step, Option.map_eq_some_iff] at hs
  obtain ⟨⟨c, evs⟩, hc, rfl⟩ := hs
  rcases (step_outcome hc).place p with hsame | ⟨-, hnext⟩ | ⟨k, ha, -⟩
  · exact hsame.symm ▸ h
  · have hpc : (w.next a c evs).thread p = c.thread p := rfl
    rw [hpc]
    rcases h with ⟨k, h⟩ | h | h
    all_goals
      rw [h] at hnext
      cases hnext' : c.thread p <;> rw [hnext'] at hnext <;> cases hnext
    · exact .inr (.inl rfl)
    · exact .inr (.inr rfl)
  · exact absurd ha (hother k)

/-- UNUSED: what `handle_wakeup` has posted for a `connect()` stays in `accept_sem`. -/
theorem acceptSem_run {as : List (Act n)} {w w' : World n} (hr : run step w as = some w') :
    w.acceptSem ≤ w'.acceptSem := by
  refine run_invariant (I := fun v : World n => w.acceptSem ≤ v.acceptSem) ?_ le_rfl hr
  intro v a v' h hs
  rw [step, Option.map_eq_some_iff] at hs
  obtain ⟨⟨c, evs⟩, hc, rfl⟩ := hs
  exact h.trans (step_outcome hc).sem

end FdPicotcp.Connect
