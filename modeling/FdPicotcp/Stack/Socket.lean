import Mathlib.Data.List.Sort
import FdPicotcp.Stack.TcpQueue
import FdPicotcp.Stack.UdpQueue

/-! A picoTCP socket as the wrapper sees it (`stack/pico_socket.c`, `modules/pico_tcp.c`).

    `pico_socket_read` and `pico_socket_accept` are what the application's threads run on it;
    `event` is what the stack thread does to it between two callbacks, with the event masks it then
    passes to `handle_wakeup`. A socket keeps `Sound` under all of them, and the three questions the
    wrapper's semaphores answer are `hasData`, `hasChild` and `peerClosed`. -/

namespace FdPicotcp.Socket
open CInt TcpQueue UdpQueue

/-- The transport of a socket. -/
inductive Proto where | tcp | udp
  deriving DecidableEq, Repr

/-- The high byte of `state`. -/
inductive TcpState where
  | undef | closed | listen | synSent | synRecv | established | closeWait | lastAck | finWait1
  | finWait2 | closing | timeWait
  deriving DecidableEq, Repr

/-- A socket of the same port whose `parent` is this one, ordered by its remote endpoint. -/
structure Child where
  remote : ℕ
  state : TcpState
  deriving DecidableEq, Repr

/-- `struct pico_socket`; `inTree` is what `pico_check_socket` looks for, `bound`, `shutRemote` and
    `closed` are bits of the low byte of `state`. -/
structure PicoSocket where
  proto : Proto
  inTree : Bool
  bound : Bool
  shutRemote : Bool
  closed : Bool
  state : TcpState
  tcp : PicoSocketTcp
  qIn : PicoQueue
  children : List Child
  numberOfPendingConn : ℕ
  maxBacklog : ℕ
  deriving DecidableEq, Repr

abbrev picoSockEvRd : BitVec 16 := 0x01
abbrev picoSockEvWr : BitVec 16 := 0x02
abbrev picoSockEvConn : BitVec 16 := 0x04
abbrev picoSockEvClose : BitVec 16 := 0x08
abbrev picoSockEvFin : BitVec 16 := 0x10
abbrev picoSockEvErr : BitVec 16 := 0x80

/-- `pico_check_socket` -/
def picoCheckSocket (s : PicoSocket) : ℤ := if s.inTree then 0 else -1

/-- The state change of `tcp_read_finish`; its `EV_CLOSE` callback finds nothing to do. -/
def tcpReadFinish (s : PicoSocket) : PicoSocket :=
  if s.tcp.remoteClosed then { s with state := .closeWait, shutRemote := true } else s

/-- `pico_socket_tcp_read` -/
def picoSocketTcpRead (s : PicoSocket) (len : ℤ) : PicoSocket × ℤ × List UInt8 :=
  if s.shutRemote ∧ s.tcp.tcpqIn.frames = 0 then (s, -1, [])
  else
    let (t, tot, buf) := picoTcpRead s.tcp (toUint32 len)
    (tcpReadFinish { s with tcp := t }, toInt32 tot, buf)

/-- `pico_socket_udp_read`: the length is a `uint16_t`. -/
def picoSocketUdpRead (s : PicoSocket) (len : ℤ) : PicoSocket × ℤ × List UInt8 :=
  if 0xFFFF < len then (s, -1, [])
  else
    let (q, ret, buf) := picoUdpRecv s.qIn (toUint16 len)
    ({ s with qIn := q }, ret, buf)

/-- The argument `buf` of a read; what the memory it points to holds is not looked at. -/
inductive Buffer where | null | valid
  deriving DecidableEq, Repr

/-- The socket afterwards, the return value and the bytes copied. -/
def picoSocketRead (s : PicoSocket) (buf : Buffer) (len : ℤ) : PicoSocket × ℤ × List UInt8 :=
  if buf = .null then (s, -1, [])
  else if picoCheckSocket s ≠ 0 then (s, -1, [])
  else if ¬ s.bound then (s, -1, [])
  else match s.proto with
    | .udp => picoSocketUdpRead s len
    | .tcp => picoSocketTcpRead s len

/-- The first established child leaves its parent. -/
def picoSocketAccept (s : PicoSocket) : PicoSocket × Option Child :=
  if ¬ s.bound ∨ s.proto = .udp ∨ s.state ≠ .listen then (s, none)
  else match s.children.find? (·.state = .established) with
    | none => (s, none)
    | some c =>
      ({ s with
        children := s.children.eraseP (·.state = .established)
        numberOfPendingConn := toUint16 (s.numberOfPendingConn - 1) }, some c)

/-- The peer has closed its side: `SHUT_REMOTE`, or a FIN waits behind unread bytes. -/
def peerClosed (s : PicoSocket) : Bool := s.shutRemote || s.tcp.remoteClosed

/-- What the stack does to the socket between two callbacks. -/
inductive Event where
  /-- an in-order segment, announced `again + 1` times -/
  | segment (f : TcpInputSegment) (again : ℕ)
  /-- a FIN without data -/
  | fin (seq : BitVec 32)
  /-- an in-order segment that carries a FIN -/
  | segmentFin (f : TcpInputSegment) (again : ℕ)
  | datagram (p : PicoFrame)
  | syn (remote : ℕ)
  | firstAck (remote : ℕ)
  | synAck (seq : BitVec 32)
  /-- `pico_socket_del` after a reset (`EV_ERR`) or a timeout (`EV_FIN`) -/
  | del (ev : BitVec 16)
  deriving DecidableEq

/-- `tcp_data_in` of the expected segment. -/
def tcpDataIn (s : PicoSocket) (f : TcpInputSegment) : Option PicoSocket :=
  if s.proto = .tcp ∧ s.inTree ∧ s.state = .established ∧ peerClosed s = false ∧
      f.seq = s.tcp.rcvNxt then
    match tcpDataInExpected s.tcp f with
    | (t, true) => some { s with tcp := t }
    | (_, false) => none
  else none

/-- `tcp_attempt_closewait` of a FIN in a frame that starts at `seq`, with whether it calls back with
    `EV_CLOSE`. Any other FIN than the expected one is ignored. -/
def tcpAttemptClosewait (s : PicoSocket) (seq : BitVec 32) : PicoSocket × Bool :=
  if picoSeqCompare seq s.tcp.rcvNxt = 0 then
    let t := { s.tcp with rcvNxt := seq + 1 }
    if picoSeqCompare seq s.tcp.rcvProcessed = 0 then
      ({ s with
        tcp := t
        state := if s.state = .established then .closeWait else s.state
        shutRemote := true }, true)
    else ({ s with tcp := { t with remoteClosed := true } }, false)
  else (s, false)

/-- `tcp_closewait` of a FIN without data, while the peer has not closed. -/
def tcpClosewait (s : PicoSocket) (seq : BitVec 32) : Option (PicoSocket × Bool) :=
  if s.proto = .tcp ∧ s.inTree ∧ s.state = .established ∧ peerClosed s = false then
    some (tcpAttemptClosewait s seq)
  else none

/-- `tcp_syn` on a listening socket. -/
def tcpSyn (s : PicoSocket) (remote : ℕ) : Option PicoSocket :=
  if s.proto = .tcp ∧ s.inTree ∧ s.state = .listen ∧ s.numberOfPendingConn < s.maxBacklog ∧
      ∀ c ∈ s.children, c.remote ≠ remote then
    some { s with
      children := s.children.orderedInsert (fun c d => c.remote ≤ d.remote) ⟨remote, .synRecv⟩
      numberOfPendingConn := toUint16 (s.numberOfPendingConn + 1) }
  else none

/-- `tcp_first_ack` on a child. -/
def tcpFirstAck (s : PicoSocket) (remote : ℕ) : Option PicoSocket :=
  if s.proto = .tcp ∧ s.inTree ∧ s.state = .listen ∧ ⟨remote, .synRecv⟩ ∈ s.children then
    some { s with children := s.children.map fun c =>
      if c = ⟨remote, .synRecv⟩ then { c with state := .established } else c }
  else none

/-- `tcp_synack` on a connecting socket. -/
def tcpSynack (s : PicoSocket) (seq : BitVec 32) : Option PicoSocket :=
  if s.proto = .tcp ∧ s.inTree ∧ s.state = .synSent then
    some { s with
      state := .established
      tcp := { s.tcp with rcvNxt := seq + 1, rcvProcessed := seq + 1 } }
  else none

/-- The socket leaves the tree; the memory is freed later. -/
def picoSocketDel (s : PicoSocket) : PicoSocket :=
  { s with inTree := false, bound := false, shutRemote := false, closed := true, state := .undef }

/-- `pico_tcp_notify_closing`, when everything sent has been acknowledged (`outEmpty`). -/
def picoTcpNotifyClosing (s : PicoSocket) (outEmpty : Bool) : PicoSocket :=
  if outEmpty then
    match s.state with
    | .established => { s with state := .finWait1 }
    | .closeWait => { s with state := .lastAck }
    | _ => s
  else s

/-- `pico_socket_shutdown` of both directions. An unbound socket is freed at once. -/
def picoSocketShutdown (s : PicoSocket) (outEmpty : Bool) : PicoSocket :=
  if s.closed then s
  else if ¬ s.bound then picoSocketDel s
  else match s.proto with
    | .udp => picoSocketDel s
    | .tcp => picoTcpNotifyClosing { s with shutRemote := true } outEmpty

/-- `pico_socket_close`: a listener goes at once. -/
def picoSocketClose (s : PicoSocket) (outEmpty : Bool) : PicoSocket :=
  if s.proto = .tcp ∧ s.state = .listen then picoSocketDel s else picoSocketShutdown s outEmpty

/-- The socket after an event, and the event masks passed to `handle_wakeup`. -/
def event (s : PicoSocket) : Event → Option (PicoSocket × List (BitVec 16))
  | .segment f again => (tcpDataIn s f).map fun s => (s, .replicate (again + 1) picoSockEvRd)
  | .fin seq => (tcpClosewait s seq).map fun (s, close) =>
    (s, if close then [picoSockEvClose] else [])
  | .segmentFin f again => (tcpDataIn s f).map fun s =>
    let (s, close) := tcpAttemptClosewait s f.seq
    (s, (if close then [picoSockEvClose] else []) ++ .replicate (again + 1) picoSockEvRd)
  | .datagram p =>
    if s.proto = .udp ∧ s.inTree ∧ s.bound then
      let (ret, q) := picoEnqueue s.qIn p
      if 0 < ret then some ({ s with qIn := q }, [picoSockEvRd]) else none
    else none
  | .syn remote => (tcpSyn s remote).map fun s => (s, [])
  | .firstAck remote => (tcpFirstAck s remote).map fun s => (s, [picoSockEvConn])
  | .synAck seq => (tcpSynack s seq).map fun s => (s, [picoSockEvConn])
  | .del ev =>
    if s.inTree ∧ (ev = picoSockEvFin ∨ ev = picoSockEvErr) then some (picoSocketDel s, [ev])
    else none

/-- Bytes or datagrams wait to be read. -/
def hasData (s : PicoSocket) : Prop :=
  match s.proto with
  | .tcp => unread s.tcp ≠ []
  | .udp => s.qIn.queue ≠ []

/-- An established connection waits to be accepted. -/
def hasChild (s : PicoSocket) : Prop := ∃ c ∈ s.children, c.state = .established

instance (s : PicoSocket) : Decidable (hasData s) := by
  unfold hasData
  cases s.proto <;> infer_instance

instance (s : PicoSocket) : Decidable (hasChild s) :=
  inferInstanceAs (Decidable (∃ c ∈ s.children, c.state = .established))

/-- What every call and event keeps: queues as their operations leave them. -/
structure Sound (s : PicoSocket) : Prop where
  inOrder : ∃ e, InOrder s.tcp e ∧ (s.inTree → peerClosed s = false → e = s.tcp.rcvNxt)
  counted : Counted s.qIn
  quiet : s.state = .synSent ∨ s.state = .listen →
    s.tcp.tcpqIn.pool = [] ∧ s.tcp.remoteClosed = false

/-- `PICO_DEFAULT_SOCKETQ` on Linux. -/
def picoDefaultSocketq : ℕ := 16 * 1024

/-- `UDP_FRAME_OVERHEAD`, the size of a `struct pico_frame` where pointers have 64 bits. -/
def udpFrameOverhead : ℕ := 184

/-- A new socket: `PICO_DEFAULT_SOCKETQ` bytes for each queue. -/
def picoSocketOpen (proto : Proto) : PicoSocket where
  proto := proto
  inTree := false
  bound := false
  shutRemote := false
  closed := false
  state := .undef
  tcp := ⟨⟨[], picoDefaultSocketq, 0, 0⟩, 0, 0, false⟩
  qIn := ⟨[], 0, 0, 0, picoDefaultSocketq, if proto = .udp then udpFrameOverhead else 0⟩
  children := []
  numberOfPendingConn := 0
  maxBacklog := 0

/-- `pico_socket_add` puts the socket in the tree of its port and sets `BOUND`. -/
def picoSocketBind (s : PicoSocket) : PicoSocket := { s with inTree := true, bound := true }

/-- `pico_socket_listen` -/
def picoSocketListen (s : PicoSocket) (backlog : ℤ) : PicoSocket :=
  if backlog < 1 ∨ ¬ s.inTree ∨ s.proto = .udp ∨ ¬ s.bound then s
  else { s with state := .listen, maxBacklog := toUint16 backlog }

/-- A bound stream socket after its handshake with a peer that starts at `seq`. -/
def connectedSocket (seq : BitVec 32) : PicoSocket :=
  let s := picoSocketBind (picoSocketOpen .tcp)
  { s with state := .established, tcp := { s.tcp with rcvNxt := seq, rcvProcessed := seq } }

/-- A read of `len` bytes leaves something to read. -/
def readLeaves (s : PicoSocket) (buf : Buffer) (len : ℤ) : Prop :=
  if buf = .null ∨ ¬ s.inTree ∨ ¬ s.bound then hasData s
  else match s.proto with
    | .tcp => toUint32 len < (unread s.tcp).length
    | .udp => if 0xFFFF < len then s.qIn.queue ≠ [] else udpLeaves s.qIn (toUint16 len)

/-- A read of `len` bytes returns `len`. -/
def readFills (s : PicoSocket) (buf : Buffer) (len : ℤ) : Prop :=
  if buf = .null ∨ ¬ s.inTree ∨ ¬ s.bound then len = -1
  else match s.proto with
    | .tcp =>
      if s.shutRemote ∧ s.tcp.tcpqIn.frames = 0 then len = -1
      else toUint32 len ≤ (unread s.tcp).length
    | .udp => 0 ≤ len ∧ len ≤ 0xFFFF ∧ udpFills s.qIn (toUint16 len)

instance (s : PicoSocket) (buf : Buffer) (len : ℤ) : Decidable (readLeaves s buf len) := by
  unfold readLeaves
  cases s.proto <;> infer_instance

instance (s : PicoSocket) (buf : Buffer) (len : ℤ) : Decidable (readFills s buf len) := by
  unfold readFills
  cases s.proto <;> infer_instance

/-- What the application's calls leave alone. -/
structure SameKind (s t : PicoSocket) : Prop where
  proto : t.proto = s.proto
  inTree : t.inTree = s.inTree
  bound : t.bound = s.bound
  closed : t.closed = s.closed
  peerClosed : peerClosed t = peerClosed s
  listen : t.state = .listen ↔ s.state = .listen

theorem SameKind.refl (s : PicoSocket) : SameKind s s := ⟨rfl, rfl, rfl, rfl, rfl, .rfl⟩

/-- What a read leaves alone. -/
structure SameShape (s t : PicoSocket) : Prop extends SameKind s t where
  children : t.children = s.children

theorem SameShape.refl (s : PicoSocket) : SameShape s s := ⟨.refl s, rfl⟩

theorem SameShape.hasChild {s t : PicoSocket} (h : SameShape s t) : hasChild t ↔ hasChild s := by
  rw [Socket.hasChild, Socket.hasChild, h.children]

/-- The outcome of a call to `pico_socket_read`. -/
structure ReadOutcome (s : PicoSocket) (buf : Buffer) (len : ℤ)
    (r : PicoSocket × ℤ × List UInt8) : Prop where
  sound : Sound r.1
  shape : SameShape s r.1
  leaves : hasData r.1 ↔ readLeaves s buf len
  fills : r.2.1 = len ↔ readFills s buf len

/-- A socket with empty queues is sound. -/
theorem sound_of_empty {s : PicoSocket} (hq : s.qIn.queue = []) (hqf : s.qIn.frames = 0)
    (hpool : s.tcp.tcpqIn.pool = []) (hsize : s.tcp.tcpqIn.size = 0)
    (hframes : s.tcp.tcpqIn.frames = 0) (hmax : s.tcp.tcpqIn.maxSize < 2 ^ 31)
    (hproc : s.tcp.rcvProcessed = s.tcp.rcvNxt) (hrc : s.tcp.remoteClosed = false) : Sound s := by
  obtain ⟨hin, -, -⟩ := inOrder_of_chain (t := s.tcp) (e := s.tcp.rcvNxt) (by rw [hpool]; exact hproc)
    (by rw [hpool, hsize]; rfl) (by rw [hpool, hframes]; rfl) (by omega) hmax
  exact ⟨⟨_, hin, fun _ _ => rfl⟩, by rw [Counted, hqf, hq]; rfl, fun _ => ⟨hpool, hrc⟩⟩

theorem sound_open (proto : Proto) : Sound (picoSocketBind (picoSocketOpen proto)) :=
  sound_of_empty rfl rfl rfl rfl rfl (show 16 * 1024 < 2 ^ 31 by decide) rfl rfl

theorem sound_connected (seq : BitVec 32) : Sound (connectedSocket seq) :=
  sound_of_empty rfl rfl rfl rfl rfl (show 16 * 1024 < 2 ^ 31 by decide) rfl rfl

theorem sound_listen (backlog : ℤ) :
    Sound (picoSocketListen (picoSocketBind (picoSocketOpen .tcp)) backlog) := by
  rw [picoSocketListen]
  split
  · exact sound_open .tcp
  · exact sound_of_empty rfl rfl rfl rfl rfl (show 16 * 1024 < 2 ^ 31 by decide) rfl rfl

theorem frames_eq_zero {t : PicoSocketTcp} {e : BitVec 32} (h : InOrder t e)
    (hf : t.tcpqIn.frames = 0) : unread t = [] := by
  rw [h.frames_eq, List.length_eq_zero_iff] at hf
  rw [unread, hf]
  simp

/-- A call that is refused with -1 changes nothing. -/
theorem readOutcome_refused {s : PicoSocket} {buf : Buffer} {len : ℤ} (h : Sound s)
    (hl : hasData s ↔ readLeaves s buf len) (hf : len = -1 ↔ readFills s buf len) :
    ReadOutcome s buf len (s, -1, []) :=
  ⟨h, .refl s, hl, by rw [← hf, eq_comm]⟩

theorem hasData_tcp {s : PicoSocket} (hp : s.proto = .tcp) : hasData s ↔ unread s.tcp ≠ [] := by
  rw [hasData, hp]

theorem hasData_udp {s : PicoSocket} (hp : s.proto = .udp) : hasData s ↔ s.qIn.queue ≠ [] := by
  rw [hasData, hp]

/-- What `tcp_read_finish` does to a socket that still has its queue. -/
theorem tcpReadFinish_shape {s : PicoSocket} {u : PicoSocketTcp} (h : Sound s)
    (hclosed : u.remoteClosed = s.tcp.remoteClosed) :
    (tcpReadFinish { s with tcp := u }).tcp = u ∧
      (tcpReadFinish { s with tcp := u }).qIn = s.qIn ∧
      ((tcpReadFinish { s with tcp := u }).state = .synSent → s.state = .synSent) ∧
      SameShape s (tcpReadFinish { s with tcp := u }) := by
  rw [tcpReadFinish]
  cases hrc : s.tcp.remoteClosed with
  | true =>
    rw [hrc] at hclosed
    have hlisten : s.state ≠ .listen := by
      intro hl
      have hopen := (h.quiet (.inr hl)).2
      rw [hrc] at hopen
      cases hopen
    simp only [hclosed, if_true]
    exact ⟨trivial, trivial, (fun hs => by cases hs), ⟨rfl, rfl, rfl, rfl,
      by simp [peerClosed, hclosed, hrc], iff_of_false (by simp) hlisten⟩, rfl⟩
  | false =>
    rw [hrc] at hclosed
    simp only [hclosed, Bool.false_eq_true, if_false]
    exact ⟨trivial, trivial, id, ⟨rfl, rfl, rfl, rfl, by simp [peerClosed, hclosed, hrc], .rfl⟩, rfl⟩

section Registered
variable {s : PicoSocket} {len : ℤ} (ht : s.inTree) (hb : s.bound)
include ht hb

theorem readLeaves_tcp (hp : s.proto = .tcp) :
    readLeaves s .valid len ↔ toUint32 len < (unread s.tcp).length := by
  rw [readLeaves, if_neg (by simp [ht, hb]), hp]

theorem readLeaves_udp (hp : s.proto = .udp) : readLeaves s .valid len ↔
    if 0xFFFF < len then s.qIn.queue ≠ [] else udpLeaves s.qIn (toUint16 len) := by
  rw [readLeaves, if_neg (by simp [ht, hb]), hp]

theorem readFills_tcp (hp : s.proto = .tcp) : readFills s .valid len ↔
    if s.shutRemote ∧ s.tcp.tcpqIn.frames = 0 then len = -1
    else toUint32 len ≤ (unread s.tcp).length := by
  rw [readFills, if_neg (by simp [ht, hb]), hp]

theorem readFills_udp (hp : s.proto = .udp) : readFills s .valid len ↔
    0 ≤ len ∧ len ≤ 0xFFFF ∧ udpFills s.qIn (toUint16 len) := by
  rw [readFills, if_neg (by simp [ht, hb]), hp]

end Registered

/-- A read of a queue in order copies the next unread bytes. -/
theorem picoSocketTcpRead_eq {s : PicoSocket} {e : BitVec 32} (len : ℤ) (hin : InOrder s.tcp e)
    (hshut : ¬ (s.shutRemote ∧ s.tcp.tcpqIn.frames = 0)) :
    ∃ u : PicoSocketTcp, picoSocketTcpRead s len = (tcpReadFinish { s with tcp := u },
        toInt32 (min (toUint32 len) (unread s.tcp).length : ℕ),
        (unread s.tcp).take (toUint32 len)) ∧
      u = (picoTcpRead s.tcp (toUint32 len)).1 ∧ InOrder u e ∧
      unread u = (unread s.tcp).drop (toUint32 len) ∧
      u.rcvNxt = s.tcp.rcvNxt ∧ u.remoteClosed = s.tcp.remoteClosed := by
  obtain ⟨u, hu, huin, hun, -⟩ := picoTcpRead_inOrder hin (toUint32_lt len)
  have hframe := picoTcpReadLoop_frame (toUint32 len) (s.tcp.tcpqIn.size + 1) s.tcp 0 []
  rw [← picoTcpRead, hu] at hframe
  refine ⟨u, ?_, by rw [hu], huin, hun, hframe⟩
  rw [picoSocketTcpRead, if_neg hshut, hu]

theorem picoSocketTcpRead_spec {s : PicoSocket} {len : ℤ} (h : Sound s) (ht : s.inTree)
    (hb : s.bound) (hp : s.proto = .tcp) (lo : -2 ^ 31 ≤ len) (hi : len < 2 ^ 31) :
    ReadOutcome s .valid len (picoSocketTcpRead s len) := by
  obtain ⟨e, hin, he⟩ := h.inOrder
  by_cases hshut : s.shutRemote ∧ s.tcp.tcpqIn.frames = 0
  · rw [picoSocketTcpRead, if_pos hshut]
    have hnil := frames_eq_zero hin hshut.2
    refine readOutcome_refused h ?_ ?_
    · rw [readLeaves_tcp ht hb hp, hasData_tcp hp, hnil]
      simp
    · rw [readFills_tcp ht hb hp, if_pos hshut]
  · obtain ⟨u, hread, hu, huin, hun, hnxt, hclosed⟩ := picoSocketTcpRead_eq len hin hshut
    obtain ⟨htcp, hq, hsyn, hshape⟩ := tcpReadFinish_shape h hclosed
    rw [hread]
    generalize tcpReadFinish { s with tcp := u } = v at htcp hq hsyn hshape
    refine ⟨⟨⟨e, htcp ▸ huin, ?_⟩, hq ▸ h.counted, ?_⟩, hshape, ?_, ?_⟩
    · rw [htcp, hshape.inTree, hshape.peerClosed, hnxt]
      exact he
    · rw [htcp, hshape.listen]
      intro hs
      obtain ⟨hnil, hrc⟩ := h.quiet (hs.imp_left hsyn)
      rw [picoTcpRead_nil hnil] at hu
      exact ⟨hu ▸ hnil, hclosed.trans hrc⟩
    · rw [readLeaves_tcp ht hb hp, hasData_tcp (hshape.proto.trans hp), htcp, hun, ne_eq,
        List.drop_eq_nil_iff]
      omega
    · have hle := unread_length_le s.tcp
      have hlt := hin.total_lt
      have hlen := toUint32_lt len
      rw [readFills_tcp ht hb hp, if_neg hshut]
      simp only
      constructor
      · intro hret
        have hcast : toInt32 (min (toUint32 len) (unread s.tcp).length : ℕ) =
            toInt32 (toUint32 len) := by
          rw [toInt32_toUint32, hret, toInt32_of_range lo hi]
        rw [toInt32_inj (by omega) hlen] at hcast
        omega
      · intro hfit
        rw [min_eq_left hfit, toInt32_toUint32, toInt32_of_range lo hi]

/-- A read without a buffer, or of a socket the stack does not serve, does nothing. -/
theorem picoSocketRead_unserved {s : PicoSocket} {buf : Buffer} {len : ℤ}
    (h : buf = .null ∨ ¬ s.inTree ∨ ¬ s.bound) : picoSocketRead s buf len = (s, -1, []) := by
  rw [picoSocketRead, picoCheckSocket]
  rcases h with hbuf | ht | hb
  · simp [hbuf]
  · simp [ht]
  · simp [hb]

/-- Any other read is the transport protocol's. -/
theorem picoSocketRead_served {s : PicoSocket} {buf : Buffer} {len : ℤ}
    (h : ¬ (buf = .null ∨ ¬ s.inTree ∨ ¬ s.bound)) : picoSocketRead s buf len =
      match s.proto with
      | .udp => picoSocketUdpRead s len
      | .tcp => picoSocketTcpRead s len := by
  simp only [not_or, not_not] at h
  obtain ⟨hbuf, ht, hb⟩ := h
  rw [picoSocketRead, if_neg hbuf, picoCheckSocket, if_pos ht, if_neg (by decide),
    if_neg (by simp [hb])]

@[simp] theorem picoSocketRead_null (s : PicoSocket) (len : ℤ) :
    picoSocketRead s .null len = (s, -1, []) := picoSocketRead_unserved (.inl rfl)

/-- While the peer is open a stream read returns as many bytes as there are, up to the length. -/
theorem picoSocketRead_open {s : PicoSocket} (len : ℤ) (h : Sound s) (ht : s.inTree) (hb : s.bound)
    (hp : s.proto = .tcp) (hopen : peerClosed s = false) :
    (picoSocketRead s .valid len).2.1 = (min (toUint32 len) (unread s.tcp).length : ℕ) ∧
      unread (picoSocketRead s .valid len).1.tcp = (unread s.tcp).drop (toUint32 len) := by
  obtain ⟨e, hin, -⟩ := h.inOrder
  have hshut : ¬ (s.shutRemote ∧ s.tcp.tcpqIn.frames = 0) := by
    intro hs
    simp [peerClosed, hs.1] at hopen
  have hcall : picoSocketRead s .valid len = picoSocketTcpRead s len := by
    rw [picoSocketRead_served (by simp [ht, hb]), hp]
  obtain ⟨u, hread, -, huin, hun, -, hclosed⟩ := picoSocketTcpRead_eq len hin hshut
  rw [hcall, hread, (tcpReadFinish_shape h hclosed).1]
  refine ⟨?_, hun⟩
  have hle := unread_length_le s.tcp
  have hlt := hin.total_lt
  simp only
  rw [toInt32_of_range (by omega) (by omega)]

theorem picoSocketUdpRead_spec {s : PicoSocket} {len : ℤ} (h : Sound s) (ht : s.inTree)
    (hb : s.bound) (hp : s.proto = .udp) : ReadOutcome s .valid len (picoSocketUdpRead s len) := by
  by_cases hbig : 0xFFFF < len
  · rw [picoSocketUdpRead, if_pos hbig]
    refine readOutcome_refused h ?_ ?_
    · rw [readLeaves_udp ht hb hp, if_pos hbig, hasData_udp hp]
    · rw [readFills_udp ht hb hp]
      omega
  · obtain ⟨hcount, hleaves, hret, -⟩ := picoUdpRecv_spec h.counted (toUint16 len)
    have hread : picoSocketUdpRead s len = ({ s with qIn := (picoUdpRecv s.qIn (toUint16 len)).1 },
        ((picoUdpRecv s.qIn (toUint16 len)).2.1 : ℤ),
        (picoUdpRecv s.qIn (toUint16 len)).2.2) := by
      rw [picoSocketUdpRead, if_neg hbig]
    rw [hread]
    refine ⟨⟨h.inOrder, hcount, h.quiet⟩, ⟨⟨rfl, rfl, rfl, rfl, rfl, .rfl⟩, rfl⟩, ?_, ?_⟩
    · have hdata : hasData { s with qIn := (picoUdpRecv s.qIn (toUint16 len)).1 } ↔
          (picoUdpRecv s.qIn (toUint16 len)).1.queue ≠ [] := hasData_udp hp
      rw [readLeaves_udp ht hb hp, if_neg hbig]
      exact hdata.trans hleaves
    · rw [readFills_udp ht hb hp, udpFills]
      simp only [hret]
      have hlt := toUint16_lt len
      constructor
      · intro hlen
        have hrange := toUint16_of_range (x := len) (by omega) (by omega)
        omega
      · rintro ⟨h0, h1, hfit⟩
        have hrange := toUint16_of_range h0 (by omega)
        omega

/-- READ: what a call leaves behind and whether it fills the buffer can be told before it. -/
theorem picoSocketRead_spec {s : PicoSocket} {buf : Buffer} {len : ℤ} (h : Sound s)
    (lo : -2 ^ 31 ≤ len) (hi : len < 2 ^ 31) :
    ReadOutcome s buf len (picoSocketRead s buf len) := by
  by_cases hreg : buf = .null ∨ ¬ s.inTree ∨ ¬ s.bound
  · rw [picoSocketRead_unserved hreg]
    refine readOutcome_refused h ?_ ?_
    · rw [readLeaves, if_pos hreg]
    · rw [readFills, if_pos hreg]
  · rw [picoSocketRead_served hreg]
    simp only [not_or, not_not] at hreg
    obtain ⟨hbuf, ht, hb⟩ := hreg
    obtain rfl : buf = .valid := by
      cases buf with
      | null => exact absurd rfl hbuf
      | valid => rfl
    cases hp : s.proto with
    | tcp => exact picoSocketTcpRead_spec h ht hb hp lo hi
    | udp => exact picoSocketUdpRead_spec h ht hb hp

theorem readLeaves_null (s : PicoSocket) (len : ℤ) : readLeaves s .null len ↔ hasData s := by
  rw [readLeaves, if_pos (.inl rfl)]

theorem readFills_null (s : PicoSocket) (len : ℤ) : readFills s .null len ↔ len = -1 := by
  rw [readFills, if_pos (.inl rfl)]

/-- On a stream socket a read into a buffer that leaves bytes behind has filled it. -/
theorem readLeaves_readFills {s : PicoSocket} {len : ℤ} (h : Sound s) (ht : s.inTree) (hb : s.bound)
    (hp : s.proto = .tcp) (hl : readLeaves s .valid len) : readFills s .valid len := by
  rw [readLeaves_tcp ht hb hp] at hl
  obtain ⟨e, hin, -⟩ := h.inOrder
  rw [readFills_tcp ht hb hp,
    if_neg (fun hshut => by rw [frames_eq_zero hin hshut.2] at hl; simp at hl)]
  exact hl.le

theorem tcpDataIn_spec {s t : PicoSocket} {f : TcpInputSegment} (h : Sound s)
    (ht : tcpDataIn s f = some t) :
    Sound t ∧ SameShape s t ∧ unread t.tcp = unread s.tcp ++ f.payload ∧ 0 < f.payloadLen ∧
      t.proto = .tcp ∧ t.state = .established ∧ t.tcp.rcvNxt = f.next := by
  rw [tcpDataIn] at ht
  split at ht
  · next hc =>
    obtain ⟨hp, htree, hest, hopen, hseq⟩ := hc
    split at ht
    · next u hacc =>
      simp only [Option.some.injEq] at ht
      subst ht
      obtain ⟨e, hin, he⟩ := h.inOrder
      have he := he htree hopen
      subst he
      obtain ⟨hpos, hfit⟩ := tcpDataInExpected_accepted (t := s.tcp) (f := f) (by rw [hacc])
      obtain ⟨v, hv, hvin, hvun, hvclosed, hvnxt⟩ := tcpDataInExpected_inOrder hin hseq hpos hfit
      rw [hacc, Prod.mk.injEq] at hv
      obtain ⟨rfl, -⟩ := hv
      refine ⟨⟨⟨_, hvin, fun _ _ => rfl⟩, h.counted, ?_⟩, ?_, hvun, hpos, hp, hest, hvnxt⟩
      · simp [hest]
      · exact ⟨⟨rfl, rfl, rfl, rfl, by simp [peerClosed, hvclosed], .rfl⟩, rfl⟩
    · cases ht
  · cases ht

/-- THE FIN OF A SEGMENT WITH DATA IS IGNORED: it is looked for at the start of the data. -/
theorem event_segmentFin {s : PicoSocket} (h : Sound s) (f : TcpInputSegment) (again : ℕ) :
    event s (.segmentFin f again) = event s (.segment f again) := by
  rw [event, event]
  cases hd : tcpDataIn s f with
  | none => rfl
  | some t =>
    obtain ⟨-, -, -, hpos, -, -, hnxt⟩ := tcpDataIn_spec h hd
    have hignored : tcpAttemptClosewait t f.seq = (t, false) := by
      rw [tcpAttemptClosewait, hnxt, if_neg (picoSeqCompare_next hpos)]
    simp only [Option.map_some, hignored]
    rfl

/-- The event is the FIN the socket expects. -/
def finExpected (s : PicoSocket) : Event → Prop
  | .fin seq => picoSeqCompare seq s.tcp.rcvNxt = 0
  | _ => False

instance (s : PicoSocket) : DecidablePred (finExpected s) := fun e => by
  unfold finExpected; split <;> infer_instance

/-- What a FIN does: it closes the peer's side if it is the expected one. -/
structure FinOutcome (s t : PicoSocket) (seq : BitVec 32) : Prop where
  sound : Sound t
  tcp : s.proto = .tcp ∧ t.proto = .tcp
  inTree : t.inTree = s.inTree
  bound : t.bound = s.bound
  closed : t.closed = s.closed
  unread : unread t.tcp = unread s.tcp
  children : t.children = s.children
  opened : peerClosed s = false
  peerClosed : peerClosed t = true ↔ finExpected s (.fin seq)
  listen : s.state ≠ .listen ∧ t.state ≠ .listen

/-- A FIN leaves the queued bytes alone. -/
theorem tcpAttemptClosewait_kept (s : PicoSocket) (seq : BitVec 32) :
    (tcpAttemptClosewait s seq).1.tcp.tcpqIn = s.tcp.tcpqIn ∧
      (tcpAttemptClosewait s seq).1.tcp.rcvProcessed = s.tcp.rcvProcessed ∧
      ((tcpAttemptClosewait s seq).1.state = .synRecv → s.state = .synRecv) := by
  rw [tcpAttemptClosewait]
  split
  · simp only
    split
    · refine ⟨rfl, rfl, ?_⟩
      intro hs
      by_cases hest : s.state = .established
      · simp [hest] at hs
      · simpa [hest] using hs
    · exact ⟨rfl, rfl, id⟩
  · exact ⟨rfl, rfl, id⟩

theorem tcpClosewait_spec {s t : PicoSocket} {seq : BitVec 32} {close : Bool} (h : Sound s)
    (ht : tcpClosewait s seq = some (t, close)) : FinOutcome s t seq := by
  obtain ⟨e, hin, -⟩ := h.inOrder
  rw [tcpClosewait] at ht
  split at ht
  · next hc =>
    obtain ⟨hp, htree, hest, hopen⟩ := hc
    have hlisten : s.state ≠ .listen := by simp [hest]
    rw [Option.some.injEq, tcpAttemptClosewait] at ht
    by_cases hexp : picoSeqCompare seq s.tcp.rcvNxt = 0
    · rw [if_pos hexp] at ht
      simp only at ht
      split at ht <;> simp only [Prod.mk.injEq] at ht <;> obtain ⟨rfl, -⟩ := ht
      · exact ⟨⟨⟨e, ⟨hin.1, hin.2, hin.3, hin.4, hin.5, hin.6⟩, by simp [peerClosed]⟩, h.counted,
          by simp⟩, ⟨hp, hp⟩, rfl, rfl, rfl, rfl, rfl, hopen,
          iff_of_true (by simp [peerClosed]) hexp, hlisten, by simp⟩
      · exact ⟨⟨⟨e, ⟨hin.1, hin.2, hin.3, hin.4, hin.5, hin.6⟩, by simp [peerClosed]⟩, h.counted,
          by simp [hest]⟩, ⟨hp, hp⟩, rfl, rfl, rfl, rfl, rfl, hopen,
          iff_of_true (by simp [peerClosed]) hexp, hlisten, hlisten⟩
    · rw [if_neg hexp, Prod.mk.injEq] at ht
      obtain ⟨rfl, -⟩ := ht
      exact ⟨h, ⟨hp, hp⟩, rfl, rfl, rfl, rfl, rfl, hopen, iff_of_false (by simp [hopen]) hexp,
        hlisten, hlisten⟩
  · cases ht

theorem tcpSyn_spec {s t : PicoSocket} {remote : ℕ} (ht : tcpSyn s remote = some t) :
    ∃ cs n, t = { s with children := cs, numberOfPendingConn := n } ∧
      ((∃ c ∈ cs, c.state = .established) ↔ hasChild s) ∧ s.state = .listen := by
  rw [tcpSyn] at ht
  split at ht
  · next hc =>
    simp only [Option.some.injEq] at ht
    subst ht
    refine ⟨_, _, rfl, ?_, hc.2.2.1⟩
    simp [hasChild, List.mem_orderedInsert]
  · cases ht

theorem tcpFirstAck_spec {s t : PicoSocket} {remote : ℕ} (ht : tcpFirstAck s remote = some t) :
    ∃ cs, t = { s with children := cs } ∧ (∃ c ∈ cs, c.state = .established) ∧
      s.state = .listen := by
  rw [tcpFirstAck] at ht
  split at ht
  · next hc =>
    simp only [Option.some.injEq] at ht
    subst ht
    refine ⟨_, rfl, ⟨⟨remote, .established⟩, ?_, rfl⟩, hc.2.2.1⟩
    exact List.mem_map.mpr ⟨_, hc.2.2.2, by simp⟩
  · cases ht

/-- What the completed handshake does to the socket that connects. -/
structure SynackOutcome (s t : PicoSocket) : Prop where
  sound : Sound t
  tcp : s.proto = .tcp ∧ t.proto = .tcp
  inTree : t.inTree = s.inTree
  bound : t.bound = s.bound
  unread : unread s.tcp = [] ∧ unread t.tcp = []
  children : t.children = s.children
  closed : t.closed = s.closed
  peerClosed : peerClosed t = peerClosed s
  listen : s.state ≠ .listen ∧ t.state ≠ .listen

theorem SynackOutcome.sameKind {s t : PicoSocket} (h : SynackOutcome s t) : SameKind s t :=
  ⟨h.tcp.2.trans h.tcp.1.symm, h.inTree, h.bound, h.closed, h.peerClosed,
    iff_of_false h.listen.2 h.listen.1⟩

theorem tcpSynack_spec {s t : PicoSocket} {seq : BitVec 32} (h : Sound s)
    (ht : tcpSynack s seq = some t) : SynackOutcome s t := by
  rw [tcpSynack] at ht
  split at ht
  · next hc =>
    obtain ⟨hp, htree, hsyn⟩ := hc
    simp only [Option.some.injEq] at ht
    subst ht
    obtain ⟨hnil, hrc⟩ := h.quiet (.inl hsyn)
    obtain ⟨e, hin, -⟩ := h.inOrder
    have hempty : ∀ u : PicoSocketTcp, u.tcpqIn.pool = [] → unread u = [] := by
      intro u hu
      rw [unread, hu]; simp
    obtain ⟨hin', -, -⟩ := inOrder_of_chain (e := seq + 1)
      (t := { s.tcp with rcvNxt := seq + 1, rcvProcessed := seq + 1 }) (by rw [hnil]; rfl)
      hin.size_eq hin.frames_eq hin.size_le hin.max_lt
    exact ⟨⟨⟨_, hin', fun _ _ => rfl⟩, h.counted, by simp⟩, ⟨hp, hp⟩, rfl, rfl,
      ⟨hempty _ hnil, hempty _ hnil⟩, rfl, rfl, rfl, by simp [hsyn], by simp⟩
  · cases ht

theorem picoSocketDel_sound {s : PicoSocket} (h : Sound s) : Sound (picoSocketDel s) := by
  obtain ⟨e, hin, -⟩ := h.inOrder
  exact ⟨⟨e, hin, fun ht => by cases ht⟩, h.counted, by simp [picoSocketDel]⟩

theorem picoTcpNotifyClosing_sound {s : PicoSocket} (h : Sound s) (outEmpty : Bool) :
    Sound (picoTcpNotifyClosing s outEmpty) := by
  rw [picoTcpNotifyClosing]
  split
  · split
    · exact ⟨h.inOrder, h.counted, by simp⟩
    · exact ⟨h.inOrder, h.counted, by simp⟩
    · exact h
  · exact h

theorem picoSocketClose_sound {s : PicoSocket} (h : Sound s) (outEmpty : Bool) :
    Sound (picoSocketClose s outEmpty) := by
  obtain ⟨e, hin, -⟩ := h.inOrder
  have hshut : Sound { s with shutRemote := true } :=
    ⟨⟨e, hin, fun _ hopen => by simp [peerClosed] at hopen⟩, h.counted, h.quiet⟩
  rw [picoSocketClose]
  split
  · exact picoSocketDel_sound h
  · rw [picoSocketShutdown]
    split
    · exact h
    · split
      · exact picoSocketDel_sound h
      · split
        · exact picoSocketDel_sound h
        · exact picoTcpNotifyClosing_sound hshut outEmpty

/-- Some of the masks handed to `handle_wakeup` contain the event. -/
def announces (mask : BitVec 16) (evs : List (BitVec 16)) : Prop := ∃ ev ∈ evs, ev &&& mask ≠ 0

theorem announces_replicate (again : ℕ) :
    announces picoSockEvRd (.replicate (again + 1) picoSockEvRd) :=
  ⟨picoSockEvRd, List.mem_replicate.mpr ⟨by omega, rfl⟩, by decide⟩

/-- What an event may do to the socket, seen through what it announces. -/
structure EventOutcome (s t : PicoSocket) (evs : List (BitVec 16)) : Prop where
  sound : Sound t
  proto : t.proto = s.proto
  data : ¬ announces picoSockEvRd evs → (hasData t ↔ hasData s)
  fresh : announces picoSockEvRd evs → hasData t
  child : ¬ announces picoSockEvConn evs → (hasChild t ↔ hasChild s)

/-- A segment is announced and leaves data. -/
theorem segment_spec {s t : PicoSocket} {f : TcpInputSegment} {again : ℕ} {evs : List (BitVec 16)}
    (h : Sound s) (he : event s (.segment f again) = some (t, evs)) : EventOutcome s t evs := by
  simp only [event, Option.map_eq_some_iff, Prod.mk.injEq] at he
  obtain ⟨u, hu, rfl, rfl⟩ := he
  obtain ⟨hsound, hshape, hun, hpos, htcp, -⟩ := tcpDataIn_spec h hu
  refine ⟨hsound, hshape.proto, fun hno => absurd (announces_replicate again) hno, ?_,
    fun _ => hshape.hasChild⟩
  intro _
  rw [hasData_tcp htcp, hun]
  exact List.append_ne_nil_of_right_ne_nil _ (List.ne_nil_of_length_pos hpos)

/-- EVENT: the socket stays sound, and new data or connections are always announced. -/
theorem event_spec {s t : PicoSocket} {e : Event} {evs : List (BitVec 16)} (h : Sound s)
    (he : event s e = some (t, evs)) : EventOutcome s t evs := by
  cases e with
  | segment f again => exact segment_spec h he
  | segmentFin f again => exact segment_spec h (event_segmentFin h f again ▸ he)
  | fin seq =>
    simp only [event, Option.map_eq_some_iff, Prod.mk.injEq, Prod.exists] at he
    obtain ⟨u, close, hu, rfl, rfl⟩ := he
    have hfin := tcpClosewait_spec h hu
    obtain ⟨hs, ht⟩ := hfin.tcp
    refine ⟨hfin.sound, ht.trans hs.symm, ?_, ?_, ?_⟩
    · intro _
      rw [hasData_tcp ht, hasData_tcp hs, hfin.unread]
    · intro hrd
      cases close <;> simp [announces] at hrd
    · intro _
      rw [hasChild, hasChild, hfin.children]
  | datagram p =>
    simp only [event] at he
    split at he
    · next hc =>
      split at he
      · next hpos =>
        simp only [Option.some.injEq, Prod.mk.injEq] at he
        obtain ⟨rfl, rfl⟩ := he
        refine ⟨⟨h.inOrder, picoEnqueue_counted h.counted p, h.quiet⟩, rfl,
          fun hno => absurd ⟨_, List.mem_singleton_self _, by decide⟩ hno, ?_,
          fun _ => .rfl⟩
        intro _
        refine (hasData_udp (s := { s with qIn := (picoEnqueue s.qIn p).2 }) hc.1).mpr ?_
        rw [picoEnqueue_queue hpos]
        simp
      · cases he
    · cases he
  | syn remote =>
    simp only [event, Option.map_eq_some_iff, Prod.mk.injEq] at he
    obtain ⟨u, hu, rfl, rfl⟩ := he
    obtain ⟨cs, n, rfl, hcs, -⟩ := tcpSyn_spec hu
    exact ⟨⟨h.inOrder, h.counted, h.quiet⟩, rfl, fun _ => .rfl, fun hrd => by simp [announces] at hrd,
      fun _ => hcs⟩
  | firstAck remote =>
    simp only [event, Option.map_eq_some_iff, Prod.mk.injEq] at he
    obtain ⟨u, hu, rfl, rfl⟩ := he
    obtain ⟨cs, rfl, -, -⟩ := tcpFirstAck_spec hu
    exact ⟨⟨h.inOrder, h.counted, h.quiet⟩, rfl, fun _ => .rfl, fun hrd => by simp [announces] at hrd,
      fun hno => absurd ⟨_, List.mem_singleton_self _, by decide⟩ hno⟩
  | synAck seq =>
    simp only [event, Option.map_eq_some_iff, Prod.mk.injEq] at he
    obtain ⟨u, hu, rfl, rfl⟩ := he
    have hout := tcpSynack_spec h hu
    refine ⟨hout.sound, hout.tcp.2.trans hout.tcp.1.symm, ?_,
      fun hrd => by simp [announces] at hrd, fun _ => by rw [hasChild, hasChild, hout.children]⟩
    intro _
    rw [hasData_tcp hout.tcp.1, hasData_tcp hout.tcp.2, hout.unread.1, hout.unread.2]
  | del ev =>
    simp only [event] at he
    split at he
    · next hc =>
      simp only [Option.some.injEq, Prod.mk.injEq] at he
      obtain ⟨rfl, rfl⟩ := he
      refine ⟨picoSocketDel_sound h, rfl, fun _ => .rfl, ?_, fun _ => .rfl⟩
      intro hrd
      rcases hc.2 with rfl | rfl <;> simp [announces] at hrd
    · cases he

/-- An accept leaves another connection to be accepted. -/
def acceptLeaves (s : PicoSocket) : Prop :=
  if ¬ s.bound ∨ s.proto = .udp ∨ s.state ≠ .listen then hasChild s
  else 2 ≤ (s.children.filter (·.state = .established)).length

instance (s : PicoSocket) : Decidable (acceptLeaves s) := by
  unfold acceptLeaves
  infer_instance

theorem filter_eraseP {α : Type*} (p : α → Bool) :
    ∀ l : List α, (l.eraseP p).filter p = (l.filter p).tail
  | [] => rfl
  | a :: l => by
    cases hp : p a with
    | true => simp [hp]
    | false => simp [hp, filter_eraseP p l]

theorem hasChild_iff (s : PicoSocket) :
    hasChild s ↔ s.children.filter (·.state = .established) ≠ [] := by
  simp [hasChild, List.filter_eq_nil_iff]

/-- What an event other than a deletion leaves alone. -/
structure StayOutcome (s t : PicoSocket) (e : Event) (evs : List (BitVec 16)) : Prop where
  closed : t.closed = s.closed
  listen : t.state = .listen ↔ s.state = .listen
  /-- a listening stream socket gets no data -/
  noData : s.state = .listen → s.proto = .tcp → ¬ announces picoSockEvRd evs
  /-- a listener hears of a connection from the ACK that completes it -/
  conn : s.state = .listen → announces picoSockEvConn evs → ∃ remote, e = .firstAck remote
  /-- only the expected FIN closes the peer's side -/
  peerClosed : ¬ announces picoSockEvRd evs →
    (peerClosed t = true ↔ finExpected s e ∨ peerClosed s = true)

theorem segment_stays {s t : PicoSocket} {f : TcpInputSegment} {again : ℕ} {evs : List (BitVec 16)}
    (h : Sound s) (he : event s (.segment f again) = some (t, evs)) (e : Event) :
    StayOutcome s t e evs := by
  simp only [event, Option.map_eq_some_iff, Prod.mk.injEq] at he
  obtain ⟨u, hu, rfl, rfl⟩ := he
  obtain ⟨-, hshape, -, -, -, hest, -⟩ := tcpDataIn_spec h hu
  have hs : s.state ≠ .listen := by rw [ne_eq, ← hshape.listen, hest]; simp
  exact ⟨hshape.closed, hshape.listen, fun hl => absurd hl hs, fun hl => absurd hl hs,
    fun hno => absurd (announces_replicate again) hno⟩

theorem event_stays {s t : PicoSocket} {e : Event} {evs : List (BitVec 16)} (h : Sound s)
    (he : event s e = some (t, evs)) (hdel : ∀ ev, e ≠ .del ev) : StayOutcome s t e evs := by
  cases e with
  | segment f again => exact segment_stays h he _
  | segmentFin f again => exact segment_stays h (event_segmentFin h f again ▸ he) _
  | fin seq =>
    simp only [event, Option.map_eq_some_iff, Prod.mk.injEq, Prod.exists] at he
    obtain ⟨u, close, hu, rfl, -⟩ := he
    have hfin := tcpClosewait_spec h hu
    obtain ⟨hs, ht⟩ := hfin.listen
    refine ⟨hfin.closed, iff_of_false ht hs, fun hl => absurd hl hs, fun hl => absurd hl hs, ?_⟩
    intro _
    rw [hfin.peerClosed, hfin.opened]
    simp
  | datagram p =>
    simp only [event] at he
    split at he
    · next hc =>
      split at he
      · simp only [Option.some.injEq, Prod.mk.injEq] at he
        obtain ⟨rfl, rfl⟩ := he
        refine ⟨rfl, .rfl, ?_, ?_, ?_⟩
        · intro _ hp
          rw [hp] at hc
          cases hc.1
        · intro _ hconn
          simp [announces] at hconn
        · intro _
          exact (or_iff_right id).symm
      · cases he
    · cases he
  | syn remote =>
    simp only [event, Option.map_eq_some_iff, Prod.mk.injEq] at he
    obtain ⟨u, hu, rfl, rfl⟩ := he
    obtain ⟨cs, k, rfl, -, hl⟩ := tcpSyn_spec hu
    exact ⟨rfl, .rfl, fun _ _ => by simp [announces], fun _ hconn => by simp [announces] at hconn,
      fun _ => (or_iff_right id).symm⟩
  | firstAck remote =>
    simp only [event, Option.map_eq_some_iff, Prod.mk.injEq] at he
    obtain ⟨u, hu, rfl, rfl⟩ := he
    obtain ⟨cs, rfl, -, hl⟩ := tcpFirstAck_spec hu
    exact ⟨rfl, .rfl, fun _ _ => by simp [announces], fun _ _ => ⟨remote, rfl⟩,
      fun _ => (or_iff_right id).symm⟩
  | synAck seq =>
    simp only [event, Option.map_eq_some_iff, Prod.mk.injEq] at he
    obtain ⟨u, hu, rfl, rfl⟩ := he
    have hout := tcpSynack_spec h hu
    obtain ⟨hs, ht⟩ := hout.listen
    exact ⟨hout.closed, iff_of_false ht hs, fun hl => absurd hl hs, fun hl => absurd hl hs,
      fun _ => hout.peerClosed ▸ (or_iff_right id).symm⟩
  | del ev => exact absurd rfl (hdel ev)

theorem picoSocketAccept_tcp (s : PicoSocket) : (picoSocketAccept s).1.tcp = s.tcp := by
  rw [picoSocketAccept]
  split
  · rfl
  · split <;> rfl

/-- ACCEPT: the socket stays sound, and what stays behind can be told before. -/
theorem picoSocketAccept_spec {s : PicoSocket} (h : Sound s) :
    Sound (picoSocketAccept s).1 ∧ (hasData (picoSocketAccept s).1 ↔ hasData s) ∧
      (hasChild (picoSocketAccept s).1 ↔ acceptLeaves s) ∧ SameKind s (picoSocketAccept s).1 := by
  rw [picoSocketAccept, acceptLeaves]
  split
  · exact ⟨h, .rfl, .rfl, .refl s⟩
  · rw [← List.head?_filter]
    cases hf : s.children.filter (·.state = .established) with
    | nil =>
      have hno : ¬ hasChild s := by rw [hasChild_iff, hf]; simp
      exact ⟨h, .rfl, iff_of_false hno (by simp), .refl s⟩
    | cons c cs =>
      refine ⟨⟨h.inOrder, h.counted, h.quiet⟩, .rfl, ?_, rfl, rfl, rfl, rfl, rfl, .rfl⟩
      rw [hasChild_iff]
      simp only [List.head?_cons]
      rw [filter_eraseP, hf, List.tail_cons, List.length_cons, ← List.length_pos_iff]
      omega

end FdPicotcp.Socket
