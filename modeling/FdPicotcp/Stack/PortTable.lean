import FdPicotcp.Lib.SearchTree
import FdPicotcp.Lib.Transition
import FdPicotcp.Stack.Socket

/-! Does a bound, connected or accepted descriptor stay in picoTCP's port table?

    `UDPTable` and `TCPTable` hold one `pico_sockport` for each port in use, and that a search tree of
    sockets ordered by `socket_cmp`. `socket_cmp_addresses` works out a result and returns 0, so two
    sockets of one family, port and remote port are one key, whatever their addresses are; and
    `pico_socket_add` does not look at what `pico_tree_insert` returns.

    The world adds the wrapper's descriptors to the tables. `Apart` says which steps leave every tree
    sorted with all its sockets in it. A run of such steps keeps every descriptor registered. -/

namespace FdPicotcp.PortTable
open Transition SearchTree
open Socket (Proto)

abbrev picoSocketStateShut : BitVec 16 := 0x0003
abbrev picoSocketStateBound : BitVec 16 := 0x0004
abbrev picoSocketStateConnected : BitVec 16 := 0x0008
abbrev picoSocketStateClosed : BitVec 16 := 0x0020
abbrev picoSocketStateTcp : BitVec 16 := 0xFF00
abbrev picoSocketStateTcpListen : BitVec 16 := 0x0200
abbrev picoSocketStateTcpSynSent : BitVec 16 := 0x0300
abbrev picoSocketStateTcpSynRecv : BitVec 16 := 0x0400
abbrev picoSocketStateTcpEstablished : BitVec 16 := 0x0500
abbrev picoSocketStateTcpCloseWait : BitVec 16 := 0x0600
abbrev picoSocketStateTcpLastAck : BitVec 16 := 0x0700
abbrev picoSocketStateTcpFinWait1 : BitVec 16 := 0x0800

/-- What the port table reads of a `struct pico_socket`. An address is the 16 bytes of the union,
    `isIpv6` is `is_sock_ipv6`, ports are as in the struct (network order). -/
structure PicoSocket where
  isIpv6 : Bool
  proto : Proto
  localAddr : List UInt8
  remoteAddr : List UInt8
  localPort : BitVec 16
  remotePort : BitVec 16
  state : BitVec 16
  parent : Option ℕ
  deriving DecidableEq

/-- The zeros that an address is compared with. -/
def ip6Any : List UInt8 := List.replicate 16 0

/-- `pico_socket_open`: no state bit, no address, no port. -/
def picoSocketOpen (isIpv6 : Bool) (proto : Proto) : PicoSocket :=
  ⟨isIpv6, proto, ip6Any, ip6Any, 0, 0, 0, none⟩

/-- `PICO_SOCKET_STATE_BOUND`. -/
def Bound (s : PicoSocket) : Prop := s.state.getLsbD 2 = true

/-- `PICO_SOCKET_STATE_CLOSED`, which `pico_socket_del` sets. -/
def Closed (s : PicoSocket) : Prop := s.state.getLsbD 5 = true

/-- The TCP part of the state is `LISTEN`. -/
def Listening (s : PicoSocket) : Prop := s.state &&& picoSocketStateTcp = picoSocketStateTcpListen

instance (s : PicoSocket) : Decidable (Bound s) := inferInstanceAs (Decidable (_ = _))
instance (s : PicoSocket) : Decidable (Closed s) := inferInstanceAs (Decidable (_ = _))
instance (s : PicoSocket) : Decidable (Listening s) := inferInstanceAs (Decidable (_ = _))

/-! The comparator -/

/-- The difference of the first bytes that differ. -/
def memcmp : List UInt8 → List UInt8 → ℤ
  | x :: xs, y :: ys => if x = y then memcmp xs ys else x.toNat - y.toNat
  | _, _ => 0

/-- `ip4.addr`, as a little-endian machine reads it. -/
def ip4Addr (addr : List UInt8) : BitVec 32 :=
  (addr.take 4).foldr (fun x n => n <<< 8 ||| BitVec.ofNat 32 x.toNat) 0

/-- IPv4 before IPv6. -/
def socketCmpFamily (a b : PicoSocket) : ℤ :=
  if a.isIpv6.toNat < b.isIpv6.toNat then -1
  else if b.isIpv6.toNat < a.isIpv6.toNat then 1
  else 0

/-- An address of zeros is equal to every address. -/
def socketCmpIpv6 (a b : PicoSocket) : ℤ :=
  if ¬ (a.isIpv6 ∧ b.isIpv6) then 0
  else if memcmp a.localAddr ip6Any = 0 ∨ memcmp b.localAddr ip6Any = 0 then 0
  else memcmp a.localAddr b.localAddr

/-- The same of IPv4, with the difference as a 32-bit number. -/
def socketCmpIpv4 (a b : PicoSocket) : ℤ :=
  if a.isIpv6 ∨ b.isIpv6 then 0
  else if ip4Addr a.localAddr = 0 ∨ ip4Addr b.localAddr = 0 then 0
  else (ip4Addr a.localAddr - ip4Addr b.localAddr).toInt

/-- The addresses of the peers, by the family of the first socket. -/
def socketCmpRemotehost (a b : PicoSocket) : ℤ :=
  if a.isIpv6 then memcmp a.remoteAddr b.remoteAddr
  else (ip4Addr a.remoteAddr - ip4Addr b.remoteAddr).toInt

/-- `ret` is computed and not returned. -/
def socketCmpAddresses (a b : PicoSocket) : ℤ :=
  let ret := socketCmpIpv6 a b
  let ret := if ret = 0 then socketCmpIpv4 a b else ret
  let _ret := if ret = 0 then socketCmpRemotehost a b else ret
  0

/-- Family, addresses, then remote ports the other way round; `socket_cmp_addresses` is always 0. -/
def socketCmp (a b : PicoSocket) : ℤ :=
  let ret := socketCmpFamily a b
  let ret := if ret = 0 then socketCmpAddresses a b else ret
  if ret = 0 then (b.remotePort.toNat : ℤ) - a.remotePort.toNat else ret

/-! The tables -/

/-- `none` where nothing is allocated. -/
abbrev Heap := ℕ → Option PicoSocket

/-- `UDPTable` and `TCPTable`: the `socks` of each `pico_sockport`. -/
abbrev Tables := Proto → BitVec 16 → Option (KeyTree ℕ)

/-- The socket at an address. What freed memory holds does not matter: no allowed run reads it. -/
def deref (heap : Heap) (a : ℕ) : PicoSocket := (heap a).getD (picoSocketOpen false .udp)

/-- `socket_cmp` on the keys of a tree. -/
def cmpAt (heap : Heap) (a b : ℕ) : ℤ := socketCmp (deref heap a) (deref heap b)

/-- The tree of a port; without a `pico_sockport` it is empty. -/
def tree (tables : Tables) (proto : Proto) (port : BitVec 16) : KeyTree ℕ :=
  (tables proto port).getD .leaf

/-- The tables with another tree at one port. -/
def setTree (tables : Tables) (proto : Proto) (port : BitVec 16) (t : Option (KeyTree ℕ)) : Tables :=
  fun proto' port' => if proto' = proto ∧ port' = port then t else tables proto' port'

/-- 0 if the socket itself is in the tree of its local port. -/
def picoCheckSocket (tables : Tables) (a : ℕ) (s : PicoSocket) : ℤ :=
  match tables s.proto s.localPort with
  | none => -1
  | some t => if a ∈ t.toList then 0 else -1

/-- How the colours rotate a tree. -/
structure Balance where
  rotate : KeyTree ℕ → KeyTree ℕ
  toList_rotate : ∀ t, (rotate t).toList = t.toList

/-- Whether there is memory for the `pico_sockport`, for its node and for the socket's node. -/
structure AddEnv where
  sockport : Bool
  sockportNode : Bool
  node : Bool
  balance : Balance

/-- `fds` are the wrapper's descriptors with their sockets, `collect` the sockets that
    `socket_garbage_collect` will free. `held` is not in the code: the descriptors for which `bind()`
    or `connect()` has returned 0 or that `accept()` has returned, until they are closed or the stack
    deletes the socket. -/
structure World where
  heap : Heap
  tables : Tables
  collect : List ℕ
  fds : List (ℤ × ℕ)
  held : List ℤ
  ret : ℤ

/-- The socket at `a` is now `s`. -/
def World.put (w : World) (a : ℕ) (s : PicoSocket) : World :=
  { w with heap := Function.update w.heap a (some s) }

/-- `pico_socket_add`. A `pico_sockport` that gets no node is lost; the socket is `BOUND` whether it
    has been inserted or not. -/
def picoSocketAdd (w : World) (a : ℕ) (s : PicoSocket) (env : AddEnv) : World × ℤ :=
  let w := w.put a s
  let sp := w.tables s.proto s.localPort
  if sp = none ∧ env.sockport = false then (w, -1)
  else
    let t := env.balance.rotate ((sp.getD .leaf).insert (cmpAt w.heap) a env.node)
    let w := { w with
      tables := if sp.isSome ∨ env.sockportNode then setTree w.tables s.proto s.localPort (some t)
        else w.tables }
    (w.put a { s with state := s.state ||| picoSocketStateBound }, 0)

/-- With `pico_socket_check_empty_sockport`. -/
def picoSocketDel (w : World) (a : ℕ) (s : PicoSocket) (balance : Balance) : World × ℤ :=
  match w.tables s.proto s.localPort with
  | none => (w, -1)
  | some t =>
    let t := balance.rotate (t.delete (cmpAt w.heap) a)
    let sp := if t.isEmpty then none else some t
    ({ w with
      tables := setTree w.tables s.proto s.localPort sp
      collect := a :: w.collect }.put a { s with state := picoSocketStateClosed }, 0)

/-- `pico_socket_alter_state` without `BOUND`. -/
def picoSocketAlterState (w : World) (a : ℕ) (more less tcp : BitVec 16) : World × ℤ :=
  match w.heap a with
  | none => (w, -1)
  | some s =>
    if w.tables s.proto s.localPort = none then (w, -1)
    else
      let state := (s.state ||| more) &&& ~~~ less
      (w.put a { s with state := if tcp = 0 then state else state &&& 0x00FF ||| tcp }, 0)

/-! Ports -/

/-- No NAT runs beside the wrapper; `addr = none` is `NULL`. -/
def picoPortInUseIpv4 (heap : Heap) (sp : Option (KeyTree ℕ)) (addr : Option (List UInt8)) : Bool :=
  let ip := ip4Addr (addr.getD ip6Any)
  if ip = 0 then sp.isSome
  else (sp.getD .leaf).toList.any fun b =>
    let s := deref heap b
    ¬ s.isIpv6 ∧ (ip4Addr s.localAddr = 0 ∨ ip4Addr s.localAddr = ip)

/-- The same of IPv6. -/
def picoPortInUseIpv6 (heap : Heap) (sp : Option (KeyTree ℕ)) (addr : Option (List UInt8)) : Bool :=
  let ip := addr.getD ip6Any
  if ip = ip6Any then sp.isSome
  else (sp.getD .leaf).toList.any fun b =>
    let s := deref heap b
    s.isIpv6 ∧ (s.localAddr = ip6Any ∨ s.localAddr = ip)

/-- `net` is the family asked about, `none` for `NULL`. -/
def picoIsPortFree (w : World) (proto : Proto) (port : BitVec 16) (addr : Option (List UInt8))
    (net : Option Bool) : Bool :=
  match net with
  | some false => ! picoPortInUseIpv4 w.heap (w.tables proto port) addr
  | some true => ! picoPortInUseIpv6 w.heap (w.tables proto port) addr
  | none => true

/-- `short_be` swaps the two bytes. -/
def shortBe (x : BitVec 16) : BitVec 16 := x <<< 8 ||| x >>> 8

/-- The loop asks `pico_is_port_free` without a protocol and an address, so it takes the first
    number drawn. -/
def picoSocketHighPort (rand : BitVec 32) : BitVec 16 :=
  shortBe ((rand.setWidth 16) % (65535 - 1024) + 1024)

/-- A `pico_socket_bind`: `linked` is that `pico_ipv4_link_find` or `pico_ipv6_link_find` knows the
    address. -/
structure BindCall where
  addr : List UInt8
  port : BitVec 16
  linked : Bool
  rand : BitVec 32
  env : AddEnv

/-- A `pico_socket_connect`: `source` is the local address found for the remote one, `syn` that there
    is memory for the first frame. -/
structure ConnectCall where
  addr : List UInt8
  port : BitVec 16
  source : Option (List UInt8)
  rand : BitVec 32
  syn : Bool
  env : AddEnv

/-- Assigning `ip4` or `ip6` of the union. -/
def setAddr (isIpv6 : Bool) (addr old : List UInt8) : List UInt8 :=
  if isIpv6 then addr else addr.take 4 ++ old.drop 4

/-- The address of no interface in particular. -/
def isAny (isIpv6 : Bool) (addr : List UInt8) : Bool :=
  if isIpv6 then addr = ip6Any else ip4Addr addr = 0

/-- The port that `pico_socket_bind` would use, if none of its checks fails. -/
def bindPort (w : World) (s : PicoSocket) (c : BindCall) : Option (BitVec 16) :=
  if isAny s.isIpv6 c.addr = false ∧ c.linked = false then none
  else
    let port := if c.port = 0 then picoSocketHighPort c.rand else c.port
    if port = 0 then none
    else if picoIsPortFree w s.proto port (some c.addr) (some s.isIpv6) = false then none
    else some port

/-- The socket that `pico_socket_bind` adds. -/
def bindSocket (s : PicoSocket) (c : BindCall) (port : BitVec 16) : PicoSocket :=
  { s with localPort := port, localAddr := setAddr s.isIpv6 c.addr s.localAddr }

/-- `pico_socket_bind`: the checks, and then the table. -/
def picoSocketBind (w : World) (a : ℕ) (s : PicoSocket) (c : BindCall) : World × ℤ :=
  match bindPort w s c with
  | none => (w, -1)
  | some port => picoSocketAdd w a (bindSocket s c port) c.env

/-- The socket when `pico_socket_connect` has set its ports. -/
def connectPorts (s : PicoSocket) (c : ConnectCall) : PicoSocket :=
  { s with
    remotePort := c.port
    localPort := if s.localPort = 0 then picoSocketHighPort c.rand else s.localPort }

/-- The socket when `pico_socket_connect` has looked for a local address. -/
def connectSocket (s : PicoSocket) (c : ConnectCall) : PicoSocket :=
  let s := connectPorts s c
  { s with
    remoteAddr := setAddr s.isIpv6 c.addr s.remoteAddr
    localAddr := match c.source with
      | none => s.localAddr
      | some addr => setAddr s.isIpv6 addr s.localAddr }

/-- What comes back from `pico_socket_alter_state` is not looked at. -/
def picoSocketConnect (w : World) (a : ℕ) (s : PicoSocket) (c : ConnectCall) : World × ℤ :=
  if c.port = 0 then (w, -1)
  else if (connectPorts s c).localPort = 0 then (w.put a (connectPorts s c), -1)
  else if c.source = none then (w.put a (connectSocket s c), -1)
  else
    let w := (picoSocketAdd w a (connectSocket s c) c.env).1
    match s.proto with
    | .udp => ((picoSocketAlterState w a picoSocketStateConnected 0 0).1, 0)
    | .tcp =>
      if c.syn then
        ((picoSocketAlterState w a (picoSocketStateConnected ||| picoSocketStateTcpSynSent)
          picoSocketStateClosed 0).1, 0)
      else (w, -1)

/-- `pico_socket_listen`, for a bound TCP socket that is in its tree. -/
def picoSocketListen (w : World) (a : ℕ) (s : PicoSocket) (backlog : ℤ) : World × ℤ :=
  if backlog < 1 ∨ picoCheckSocket w.tables a s ≠ 0 ∨ s.proto = .udp ∨ ¬ Bound s then (w, -1)
  else ((picoSocketAlterState w a picoSocketStateTcpSynSent 0 picoSocketStateTcpListen).1, 0)

/-- The first established connection of the listener's port that has not been accepted. -/
def picoSocketAccept (w : World) (l : ℕ) (s : PicoSocket) : Option ℕ :=
  if ¬ Bound s ∨ s.proto = .udp ∨ ¬ Listening s then none
  else (tree w.tables .tcp s.localPort).toList.find? fun c =>
    (deref w.heap c).parent = some l ∧
      (deref w.heap c).state &&& picoSocketStateTcp = picoSocketStateTcpEstablished

/-- The connection that `tcp_syn` makes: the clone of the listener, with the endpoint of the frame. -/
def synSocket (s : PicoSocket) (l : ℕ) (sport : BitVec 16) (src dst : List UInt8) : PicoSocket :=
  { s with
    remotePort := sport
    remoteAddr := setAddr s.isIpv6 src s.remoteAddr
    localAddr := setAddr s.isIpv6 dst s.localAddr
    parent := some l
    state := picoSocketStateBound ||| picoSocketStateConnected ||| picoSocketStateTcpSynRecv }

/-- `pico_socket_tcp_notify_closing` -/
def picoTcpNotifyClosing (s : PicoSocket) (outEmpty : Bool) : PicoSocket :=
  if outEmpty = false then s
  else if s.state &&& picoSocketStateTcp = picoSocketStateTcpEstablished then
    { s with state := s.state &&& 0x00FF ||| picoSocketStateTcpFinWait1 }
  else if s.state &&& picoSocketStateTcp = picoSocketStateTcpCloseWait then
    { s with state := s.state &&& 0x00FF ||| picoSocketStateTcpLastAck }
  else s

/-- `PICO_FREE`. -/
def World.free (w : World) (a : ℕ) : World := { w with heap := Function.update w.heap a none }

/-- `pico_socket_close`, with `pico_socket_shutdown`. -/
def picoSocketClose (w : World) (a : ℕ) (s : PicoSocket) (outEmpty : Bool) (balance : Balance) : World :=
  if s.proto = .tcp ∧ Listening s then (picoSocketDel w a s balance).1
  else if Closed s then w
  else if ¬ Bound s then w.free a
  else match s.proto with
    | .udp => (picoSocketDel w a s balance).1
    | .tcp =>
      let w := (picoSocketAlterState w a picoSocketStateShut 0 0).1
      match w.heap a with
      | none => w
      | some s => w.put a (picoTcpNotifyClosing s outEmpty)

/-! Runs -/

/-- A call of the wrapper, or a step of the stack. -/
inductive Act where
  | socket (fd : ℤ) (a : ℕ) (isIpv6 : Bool) (proto : Proto)
  /-- `none` when `fd_pico_socket_bind` returns before the socket is bound -/
  | bind (fd : ℤ) (call : Option BindCall)
  | connect (fd : ℤ) (call : Option ConnectCall)
  | listen (fd : ℤ) (backlog : ℤ)
  /-- `created` is that `fd_elem_create` succeeds -/
  | accept (fd newFd : ℤ) (created : Bool)
  | close (fd : ℤ) (outEmpty : Bool) (balance : Balance)
  /-- a SYN for the listener at `l`, whose clone is allocated at `a` -/
  | syn (l a : ℕ) (sport : BitVec 16) (src dst : List UInt8) (env : AddEnv)
  /-- a segment or a timer changes the TCP state of a registered socket -/
  | tcp (a : ℕ) (state : BitVec 16)
  /-- the stack tears a connection down -/
  | del (a : ℕ) (balance : Balance)
  | gc (a : ℕ)

/-- `get_socket_from_fd` -/
def World.socketOf (w : World) (fd : ℤ) : Option (ℕ × PicoSocket) :=
  (w.fds.lookup fd).bind fun a => (w.heap a).map fun s => (a, s)

/-- The return of a call that grants its descriptor a place in the table. -/
def World.grant (w : World) (fd ret : ℤ) : World :=
  { w with ret, held := if ret = 0 then fd :: w.held else w.held }

/-- The stack gives up the socket at `a`. -/
def World.drop (w : World) (a : ℕ) : World :=
  { w with held := w.held.filter fun fd => w.fds.lookup fd ≠ some a }

/-- `none` where no descriptor is open or its socket has been freed. -/
def step (w : World) : Act → Option World
  | .socket fd a isIpv6 proto =>
    if w.heap a = none ∧ fd ∉ w.fds.map Prod.fst then
      some { w.put a (picoSocketOpen isIpv6 proto) with fds := (fd, a) :: w.fds, ret := fd }
    else none
  | .bind fd call => (w.socketOf fd).map fun (a, s) =>
    match call with
    | none => { w with ret := -1 }
    | some c => (picoSocketBind w a s c).1.grant fd (picoSocketBind w a s c).2
  | .connect fd call => (w.socketOf fd).map fun (a, s) =>
    match call with
    | none => { w with ret := -1 }
    | some c => (picoSocketConnect w a s c).1.grant fd (picoSocketConnect w a s c).2
  | .listen fd backlog => (w.socketOf fd).map fun (a, s) =>
    { (picoSocketListen w a s backlog).1 with ret := (picoSocketListen w a s backlog).2 }
  | .accept fd newFd created => (w.socketOf fd).bind fun (l, s) =>
    match picoSocketAccept w l s with
    | none => some { w with ret := -1 }
    | some c =>
      if newFd ∈ w.fds.map Prod.fst then none
      else
        let u := w.put c { deref w.heap c with parent := none }
        if created then
          some { u with fds := (newFd, c) :: w.fds, held := newFd :: w.held, ret := newFd }
        else some { u with ret := -1 }
  | .close fd outEmpty balance => (w.socketOf fd).map fun (a, s) =>
    picoSocketClose { w with
      fds := w.fds.filter fun p => p.1 ≠ fd
      held := w.held.filter fun fd' => fd' ≠ fd } a s outEmpty balance
  | .syn l a sport src dst env =>
    match w.heap l, w.heap a with
    | some s, none =>
      if Listening s then some (picoSocketAdd w a (synSocket s l sport src dst) env).1 else none
    | _, _ => none
  | .tcp a state =>
    match w.heap a with
    | some s =>
      if picoCheckSocket w.tables a s = 0 ∧
          state &&& picoSocketStateTcp ≠ picoSocketStateTcpListen then
        some (w.put a { s with state := s.state &&& 0x00FF ||| state &&& picoSocketStateTcp })
      else none
    | none => none
  | .del a balance => (w.heap a).map fun s =>
    let (u, ret) := picoSocketDel w a s balance
    if ret = 0 then u.drop a else u
  | .gc a =>
    if a ∈ w.collect ∧ w.heap a ≠ none then some { w.free a with collect := w.collect.erase a }
    else none

/-- No socket, no descriptor, empty tables. -/
def begin : World := ⟨fun _ => none, fun _ _ => none, [], [], [], 0⟩

/-- Every descriptor that holds a place in the table is found there. -/
def Registered (w : World) : Prop :=
  ∀ fd ∈ w.held, ∃ a s, w.socketOf fd = some (a, s) ∧ picoCheckSocket w.tables a s = 0

/-! What a step must meet -/

/-- The order that `socket_cmp` puts sockets in. -/
def key (s : PicoSocket) : ℤ := 65536 * s.isIpv6.toNat - s.remotePort.toNat

/-- The key of the socket at an address, by which its tree is sorted. -/
def rank (heap : Heap) (a : ℕ) : ℤ := key (deref heap a)

/-- The socket `s` can be at `a` in the tree of its port: no other is the same key, and there is
    memory if it is not in the tree yet. -/
def Fits (w : World) (a : ℕ) (s : PicoSocket) (env : AddEnv) : Prop :=
  if a ∈ (tree w.tables s.proto s.localPort).toList then
    Sorted (rank (w.put a s).heap) (tree w.tables s.proto s.localPort)
  else
    (∀ b ∈ (tree w.tables s.proto s.localPort).toList, rank w.heap b ≠ key s) ∧
      env.node = true ∧ (w.tables s.proto s.localPort = none → env.sockportNode = true)

/-- A `bind()` that gets past the checks is not of a deleted socket, does not move a bound one to
    another port, and the socket fits. -/
def BindApart (w : World) (a : ℕ) (s : PicoSocket) (c : BindCall) : Prop :=
  ∀ port ∈ bindPort w s c, ¬ Closed s ∧ (Bound s → port = s.localPort) ∧
    (w.tables s.proto port ≠ none ∨ c.env.sockport = true → Fits w a (bindSocket s c port) c.env)

/-- A `connect()` changes the key of a bound socket where it is; one that adds the socket needs the
    `pico_sockport`. -/
def ConnectApart (w : World) (a : ℕ) (s : PicoSocket) (c : ConnectCall) : Prop :=
  c.port = 0 ∨
    (Bound s → Sorted (rank (w.put a (connectPorts s c)).heap) (tree w.tables s.proto s.localPort)) ∧
    (c.source = none ∨ ¬ Closed s ∧
      (w.tables s.proto (connectSocket s c).localPort ≠ none ∨ c.env.sockport = true) ∧
      Fits w a (connectSocket s c) c.env)

/-- No descriptor names the address at which a socket is being allocated. -/
def Unused (w : World) (a : ℕ) : Prop := ∀ p ∈ w.fds, p.2 ≠ a

/-- What each step has to meet: the calls and the stack put no two sockets with one key into a tree. -/
def Apart (w : World) : Act → Prop
  | .socket _ a _ _ => Unused w a
  | .bind fd (some c) => ∀ p ∈ w.socketOf fd, BindApart w p.1 p.2 c
  | .connect fd (some c) => ∀ p ∈ w.socketOf fd, ConnectApart w p.1 p.2 c
  | .syn l a sport src dst env =>
    Unused w a ∧ ∀ s ∈ w.heap l, Fits w a (synSocket s l sport src dst) env
  | .del a _ => ∀ s ∈ w.heap a, Bound s ∨ w.tables s.proto s.localPort = none
  | _ => True

instance (heap : Heap) (t : KeyTree ℕ) : Decidable (Sorted (rank heap) t) :=
  inferInstanceAs (Decidable (List.Pairwise _ _))

instance (w : World) (a : ℕ) (s : PicoSocket) (env : AddEnv) : Decidable (Fits w a s env) :=
  inferInstanceAs (Decidable (ite _ _ _))

instance (w : World) (a : ℕ) (s : PicoSocket) (c : BindCall) : Decidable (BindApart w a s c) :=
  Option.decidableForallMem _

instance (w : World) (a : ℕ) (s : PicoSocket) (c : ConnectCall) : Decidable (ConnectApart w a s c) :=
  inferInstanceAs (Decidable (_ ∨ _))

instance (w : World) (a : ℕ) : Decidable (Unused w a) := inferInstanceAs (Decidable (∀ _ ∈ _, _))

instance (w : World) (act : Act) : Decidable (Apart w act) := by
  unfold Apart
  split <;> infer_instance

/-! The order of a tree -/

theorem socketCmp_eq (a b : PicoSocket) : socketCmp a b =
    if a.isIpv6 = b.isIpv6 then (b.remotePort.toNat : ℤ) - a.remotePort.toNat
    else if a.isIpv6 then 1 else -1 := by
  rw [socketCmp, socketCmpFamily, socketCmpAddresses]
  cases a.isIpv6 <;> cases b.isIpv6 <;> rfl

theorem orders_rank (heap : Heap) : Orders (cmpAt heap) (rank heap) := by
  constructor <;> intro a b <;> rw [cmpAt, socketCmp_eq, rank, rank, key, key] <;>
    generalize deref heap a = s <;> generalize deref heap b = t <;>
    have hs := s.remotePort.isLt <;> have ht := t.remotePort.isLt <;>
    cases s.isIpv6 <;> cases t.isIpv6 <;>
    simp only [Bool.toNat_true, Bool.toNat_false, if_true, if_false, Bool.false_eq_true,
      Bool.true_eq_false] <;> omega

/-! Heap and tables -/

variable {heap : Heap} {tables : Tables} {a b : ℕ} {s s' : PicoSocket}

theorem deref_update_self : deref (Function.update heap a (some s)) a = s := by
  rw [deref, Function.update_self]
  rfl

theorem rank_update_self : rank (Function.update heap a (some s)) a = key s := by
  rw [rank, deref_update_self]

theorem rank_update_of_ne {o : Option PicoSocket} (h : b ≠ a) :
    rank (Function.update heap a o) b = rank heap b := by
  rw [rank, deref, Function.update_of_ne h]
  rfl

theorem rank_of_eq_some (h : heap a = some s) : rank heap a = key s := by
  rw [rank, deref, h]
  rfl

/-- A socket that is not in a tree does not order it. -/
theorem Sorted.update {t : KeyTree ℕ} {o : Option PicoSocket} (h : Sorted (rank heap) t)
    (ha : a ∉ t.toList) : Sorted (rank (Function.update heap a o)) t := by
  refine h.congr ?_
  intro b hb
  exact rank_update_of_ne (ne_of_mem_of_not_mem hb ha)

theorem tree_setTree (proto proto' : Proto) (port port' : BitVec 16) (t : Option (KeyTree ℕ)) :
    tree (setTree tables proto port t) proto' port' =
      if proto' = proto ∧ port' = port then t.getD .leaf else tree tables proto' port' := by
  rw [tree, setTree]
  split <;> rfl

theorem picoCheckSocket_eq_zero :
    picoCheckSocket tables a s = 0 ↔ a ∈ (tree tables s.proto s.localPort).toList := by
  rw [picoCheckSocket, tree]
  cases tables s.proto s.localPort with
  | none => simp
  | some t => simp

/-- The bound sockets are the sockets of the trees, each in the tree of its port, and every tree is
    sorted. -/
structure Filed (heap : Heap) (tables : Tables) : Prop where
  sorted : ∀ proto port, Sorted (rank heap) (tree tables proto port)
  mem : ∀ proto port, ∀ a ∈ (tree tables proto port).toList, ∃ s, heap a = some s ∧ Bound s ∧
    s.proto = proto ∧ s.localPort = port
  found : ∀ a s, heap a = some s → Bound s → a ∈ (tree tables s.proto s.localPort).toList
  port : ∀ a s, heap a = some s → Bound s → s.localPort ≠ 0

/-- A socket is rewritten together with the tree of the port where the tables hold it, if they do:
    that tree has the others as before, and the socket exactly if it is bound. -/
theorem Filed.rewrite {proto : Proto} {port : BitVec 16} {t : Option (KeyTree ℕ)}
    (h : Filed heap tables)
    (hplace : ∀ proto' port', a ∈ (tree tables proto' port').toList → proto' = proto ∧ port' = port)
    (hsorted : Sorted (rank (Function.update heap a (some s))) (t.getD .leaf))
    (hself : a ∈ (t.getD .leaf).toList ↔ Bound s)
    (hothers : ∀ b ≠ a, b ∈ (t.getD .leaf).toList ↔ b ∈ (tree tables proto port).toList)
    (hs : Bound s → s.proto = proto ∧ s.localPort = port ∧ s.localPort ≠ 0) :
    Filed (Function.update heap a (some s)) (setTree tables proto port t) where
  sorted := by
    intro proto' port'
    rw [tree_setTree]
    split
    · exact hsorted
    · rename_i hother
      exact Sorted.update (h.sorted proto' port') fun ha => hother (hplace proto' port' ha)
  mem := by
    intro proto' port' b hb
    rw [tree_setTree] at hb
    rcases eq_or_ne b a with rfl | hne
    · rw [Function.update_self]
      split at hb
      · rename_i hat
        have hbound := hself.mp hb
        obtain ⟨hproto, hport, -⟩ := hs hbound
        exact ⟨s, rfl, hbound, hproto.trans hat.1.symm, hport.trans hat.2.symm⟩
      · rename_i hother
        exact absurd (hplace proto' port' hb) hother
    · rw [Function.update_of_ne hne]
      split at hb
      · rename_i hat
        obtain ⟨rfl, rfl⟩ := hat
        exact h.mem _ _ b ((hothers b hne).mp hb)
      · exact h.mem proto' port' b hb
  found := by
    intro b r hr hb
    rw [tree_setTree]
    rcases eq_or_ne b a with rfl | hne
    · rw [Function.update_self, Option.some.injEq] at hr
      subst hr
      rw [if_pos ⟨(hs hb).1, (hs hb).2.1⟩]
      exact hself.mpr hb
    · rw [Function.update_of_ne hne] at hr
      have hfound := h.found b r hr hb
      split
      · rename_i hat
        rw [hat.1, hat.2] at hfound
        exact (hothers b hne).mpr hfound
      · exact hfound
  port := by
    intro b r hr hb
    rcases eq_or_ne b a with rfl | hne
    · rw [Function.update_self, Option.some.injEq] at hr
      subst hr
      exact (hs hb).2.2
    · rw [Function.update_of_ne hne] at hr
      exact h.port b r hr hb

/-- A socket in a tree is where its own port says. -/
theorem Filed.place (h : Filed heap tables) {proto : Proto} {port : BitVec 16} (hs : heap a = some s)
    (ha : a ∈ (tree tables proto port).toList) : Bound s ∧ s.proto = proto ∧ s.localPort = port := by
  obtain ⟨t, ht, hat⟩ := h.mem proto port a ha
  rw [hs, Option.some.injEq] at ht
  exact ht ▸ hat

theorem Filed.tables_ne_none (h : Filed heap tables) (hs : heap a = some s) (hb : Bound s) :
    tables s.proto s.localPort ≠ none := by
  intro hnone
  have hmem := h.found a s hs hb
  rw [tree, hnone] at hmem
  cases hmem

/-- A change of the socket at `a` that leaves it bound or unbound, and where it is in the table. -/
structure Moves (heap : Heap) (tables : Tables) (a : ℕ) (s' : PicoSocket) : Prop where
  unbound : Bound s' → ∃ s, heap a = some s ∧ Bound s
  bound : ∀ s, heap a = some s → Bound s → Bound s' ∧ s'.proto = s.proto ∧
    s'.localPort = s.localPort ∧ Sorted (rank (Function.update heap a (some s')))
      (tree tables s.proto s.localPort)

theorem Filed.put (h : Filed heap tables) (hm : Moves heap tables a s') :
    Filed (Function.update heap a (some s')) tables where
  sorted := by
    intro proto port
    by_cases ha : a ∈ (tree tables proto port).toList
    · obtain ⟨s, hs, hb, rfl, rfl⟩ := h.mem proto port a ha
      exact (hm.bound s hs hb).2.2.2
    · exact Sorted.update (h.sorted proto port) ha
  mem := by
    intro proto port b hb
    obtain ⟨t, ht, hbt, rfl, rfl⟩ := h.mem proto port b hb
    rcases eq_or_ne b a with rfl | hne
    · obtain ⟨hb', hproto, hport, -⟩ := hm.bound t ht hbt
      exact ⟨s', Function.update_self .., hb', hproto, hport⟩
    · exact ⟨t, by rw [Function.update_of_ne hne, ht], hbt, rfl, rfl⟩
  found := by
    intro b t ht hbt
    rcases eq_or_ne b a with rfl | hne
    · rw [Function.update_self, Option.some.injEq] at ht
      subst ht
      obtain ⟨s, hs, hb⟩ := hm.unbound hbt
      obtain ⟨-, hproto, hport, -⟩ := hm.bound s hs hb
      rw [hproto, hport]
      exact h.found b s hs hb
    · rw [Function.update_of_ne hne] at ht
      exact h.found b t ht hbt
  port := by
    intro b t ht hbt
    rcases eq_or_ne b a with rfl | hne
    · rw [Function.update_self, Option.some.injEq] at ht
      subst ht
      obtain ⟨s, hs, hb⟩ := hm.unbound hbt
      obtain ⟨-, -, hport, -⟩ := hm.bound s hs hb
      rw [hport]
      exact h.port b s hs hb
    · rw [Function.update_of_ne hne] at ht
      exact h.port b t ht hbt

/-- A socket that is bound neither before nor after. -/
theorem Moves.of_unbound (h : ∀ s, heap a = some s → ¬ Bound s) (hb : ¬ Bound s') :
    Moves heap tables a s' :=
  ⟨fun hb' => absurd hb' hb, fun s hs hbs => absurd hbs (h s hs)⟩

/-- A change of other fields than those of the key. -/
theorem Moves.of_key (h : Filed heap tables) (hs : heap a = some s) (hb : Bound s' ↔ Bound s)
    (hproto : s'.proto = s.proto) (hport : s'.localPort = s.localPort) (hkey : key s' = key s) :
    Moves heap tables a s' := by
  refine ⟨fun hb' => ⟨s, hs, hb.mp hb'⟩, ?_⟩
  intro t ht hbt
  rw [hs, Option.some.injEq] at ht
  subst ht
  refine ⟨hb.mpr hbt, hproto, hport, (h.sorted _ _).congr ?_⟩
  intro b _
  rcases eq_or_ne b a with rfl | hne
  · rw [rank_update_self, rank_of_eq_some hs, hkey]
  · exact rank_update_of_ne hne

theorem Filed.free (h : Filed heap tables) (ha : ∀ s, heap a = some s → ¬ Bound s) :
    Filed (Function.update heap a none) tables := by
  have hout : ∀ proto port, a ∉ (tree tables proto port).toList := by
    intro proto port hmem
    obtain ⟨s, hs, hb, -⟩ := h.mem proto port a hmem
    exact ha s hs hb
  refine ⟨fun proto port => Sorted.update (h.sorted proto port) (hout proto port), ?_, ?_, ?_⟩
  · intro proto port b hb
    obtain ⟨t, ht, hbt⟩ := h.mem proto port b hb
    rw [Function.update_of_ne (ne_of_mem_of_not_mem hb (hout proto port))]
    exact ⟨t, ht, hbt⟩
  · intro b t ht hbt
    rcases eq_or_ne b a with rfl | hne
    · rw [Function.update_self] at ht
      cases ht
    · rw [Function.update_of_ne hne] at ht
      exact h.found b t ht hbt
  · intro b t ht hbt
    rcases eq_or_ne b a with rfl | hne
    · rw [Function.update_self] at ht
      cases ht
    · rw [Function.update_of_ne hne] at ht
      exact h.port b t ht hbt

/-! Adding and deleting -/

/-- The tree of the socket's port after `pico_tree_insert`. -/
def addTree (w : World) (a : ℕ) (s : PicoSocket) (env : AddEnv) : KeyTree ℕ :=
  env.balance.rotate
    ((tree w.tables s.proto s.localPort).insert (cmpAt (w.put a s).heap) a env.node)

/-- The socket with its bit set. -/
def boundSocket (s : PicoSocket) : PicoSocket := { s with state := s.state ||| picoSocketStateBound }

theorem bound_boundSocket : Bound (boundSocket s) := by
  rw [Bound, boundSocket, BitVec.getLsbD_or]
  exact Bool.or_true _

variable {w : World} {env : AddEnv}

/-- Without memory for the `pico_sockport` nothing is added. -/
theorem picoSocketAdd_none (hsp : w.tables s.proto s.localPort = none) (henv : env.sockport = false) :
    picoSocketAdd w a s env = (w.put a s, -1) := by
  rw [picoSocketAdd]
  exact if_pos ⟨hsp, henv⟩

theorem picoSocketAdd_eq (hsp : w.tables s.proto s.localPort ≠ none ∨ env.sockport = true) :
    picoSocketAdd w a s env = ({ w with
      heap := Function.update w.heap a (some (boundSocket s))
      tables := if (w.tables s.proto s.localPort).isSome ∨ env.sockportNode = true then
          setTree w.tables s.proto s.localPort (some (addTree w a s env))
        else w.tables }, 0) := by
  have hadd : ¬ (w.tables s.proto s.localPort = none ∧ env.sockport = false) := by
    rintro ⟨hnone, hfalse⟩
    rw [hfalse] at hsp
    exact hsp.elim (fun h => h hnone) Bool.false_ne_true
  rw [picoSocketAdd]
  simp only [World.put, Function.update_idem]
  rw [if_neg hadd]
  rfl

/-- What `Fits` says of the tree with the new socket. -/
theorem Fits.addTree (h : Filed w.heap w.tables) (hf : Fits w a s env) :
    Sorted (rank (w.put a s).heap) (addTree w a s env) ∧
      ∀ b, b ∈ (PortTable.addTree w a s env).toList ↔
        b = a ∨ b ∈ (tree w.tables s.proto s.localPort).toList := by
  have hinsert : Sorted (rank (w.put a s).heap) ((tree w.tables s.proto s.localPort).insert
      (cmpAt (w.put a s).heap) a env.node) ∧ ∀ b, b ∈ ((tree w.tables s.proto s.localPort).insert
        (cmpAt (w.put a s).heap) a env.node).toList ↔
          b = a ∨ b ∈ (tree w.tables s.proto s.localPort).toList := by
    rw [Fits] at hf
    by_cases ha : a ∈ (tree w.tables s.proto s.localPort).toList
    · rw [if_pos ha] at hf
      refine hf.insert (orders_rank _) ?_ (.inl ha)
      intro b hb hne heq
      exact hne (hf.unique hb ha heq)
    · rw [if_neg ha] at hf
      refine Sorted.insert (orders_rank _) (Sorted.update (h.sorted _ _) ha) ?_ (.inr hf.2.1)
      intro b hb hne heq
      rw [World.put, rank_update_of_ne hne, rank_update_self] at heq
      exact hf.1 b hb heq
  rw [PortTable.addTree]
  refine ⟨hinsert.1.of_toList (env.balance.toList_rotate _), ?_⟩
  intro b
  rw [env.balance.toList_rotate]
  exact hinsert.2 b

/-- ADD: a socket that fits is in the table afterwards, and all others are where they were. -/
theorem Filed.add (h : Filed w.heap w.tables) (hf : Fits w a s env)
    (hsp : w.tables s.proto s.localPort ≠ none ∨ env.sockport = true) (hport : s.localPort ≠ 0)
    (hsame : ∀ t, w.heap a = some t → Bound t → t.proto = s.proto ∧ t.localPort = s.localPort) :
    Filed (picoSocketAdd w a s env).1.heap (picoSocketAdd w a s env).1.tables := by
  obtain ⟨hsorted, hmem⟩ := hf.addTree h
  -- where the tables hold `a` before, they hold it at the same port
  have hplace : ∀ proto port, a ∈ (tree w.tables proto port).toList →
      proto = s.proto ∧ port = s.localPort := by
    intro proto port ha
    obtain ⟨t, ht, hb, rfl, rfl⟩ := h.mem proto port a ha
    exact hsame t ht hb
  have htables : ((w.tables s.proto s.localPort).isSome ∨ env.sockportNode = true) := by
    rw [Fits] at hf
    cases hnone : w.tables s.proto s.localPort with
    | some t => exact .inl rfl
    | none =>
      have ha : a ∉ (tree w.tables s.proto s.localPort).toList := by
        rw [tree, hnone]
        exact List.not_mem_nil
      rw [if_neg ha] at hf
      exact .inr (hf.2.2 hnone)
  have hrank : rank (Function.update w.heap a (some (boundSocket s))) = rank (w.put a s).heap := by
    funext b
    rcases eq_or_ne b a with rfl | hne
    · rw [rank_update_self, World.put, rank_update_self]
      rfl
    · rw [rank_update_of_ne hne, World.put, rank_update_of_ne hne]
  rw [picoSocketAdd_eq hsp, if_pos htables]
  refine h.rewrite hplace (hrank ▸ hsorted) ?_ ?_ fun _ => ⟨rfl, rfl, hport⟩
  · exact iff_of_true ((hmem a).mpr (.inl rfl)) bound_boundSocket
  · intro b hne
    exact (hmem b).trans (or_iff_right hne)

/-- The socket that `pico_socket_del` leaves. -/
def closedSocket (s : PicoSocket) : PicoSocket := { s with state := picoSocketStateClosed }

theorem not_bound_closedSocket : ¬ Bound (closedSocket s) := by
  change ¬ picoSocketStateClosed.getLsbD 2 = true
  decide

theorem closed_closedSocket : Closed (closedSocket s) := by
  change picoSocketStateClosed.getLsbD 5 = true
  decide

/-- DELETE: a bound socket leaves the table, all others are where they were. -/
theorem Filed.del (h : Filed w.heap w.tables) (hs : w.heap a = some s) (hb : Bound s)
    (balance : Balance) : ∃ tables, picoSocketDel w a s balance = ({ w with
      heap := Function.update w.heap a (some (closedSocket s))
      tables := tables
      collect := a :: w.collect }, 0) ∧ Filed (Function.update w.heap a (some (closedSocket s))) tables := by
  obtain ⟨t, ht⟩ := Option.ne_none_iff_exists'.mp (h.tables_ne_none hs hb)
  have htree : tree w.tables s.proto s.localPort = t := by rw [tree, ht, Option.getD_some]
  have hsorted := h.sorted s.proto s.localPort
  have hfound := h.found a s hs hb
  rw [htree] at hsorted hfound
  have hdelete : Sorted (rank w.heap) (balance.rotate (t.delete (cmpAt w.heap) a)) :=
    hsorted.delete.of_toList (balance.toList_rotate _)
  -- the sockets that stay
  have hmem : ∀ b, b ∈ (balance.rotate (t.delete (cmpAt w.heap) a)).toList ↔ b ∈ t.toList ∧ b ≠ a := by
    intro b
    rw [balance.toList_rotate, hsorted.mem_delete (orders_rank _)]
    refine and_congr_right ?_
    intro hbt
    refine not_congr ⟨hsorted.unique hbt hfound, ?_⟩
    rintro rfl
    rfl
  simp only [picoSocketDel, ht]
  generalize balance.rotate (t.delete (cmpAt w.heap) a) = u at hdelete hmem
  have hleaf : ((if u.isEmpty then none else some u).getD .leaf).toList = u.toList := by
    split
    · rename_i hempty
      exact (KeyTree.isEmpty_iff.mp hempty).symm
    · rfl
  have hout : ∀ proto port, a ∈ (tree w.tables proto port).toList →
      proto = s.proto ∧ port = s.localPort := by
    intro proto port ha
    obtain ⟨-, rfl, rfl⟩ := h.place hs ha
    exact ⟨rfl, rfl⟩
  have hgone : a ∉ u.toList := fun ha => ((hmem a).mp ha).2 rfl
  refine ⟨_, rfl, h.rewrite hout ?_ ?_ ?_ fun hb => absurd hb not_bound_closedSocket⟩
  · refine Sorted.update (hdelete.of_toList hleaf) ?_
    rwa [hleaf]
  · rw [hleaf]
    exact iff_of_false hgone not_bound_closedSocket
  · intro b hne
    rw [hleaf, hmem, htree]
    exact and_iff_left hne

/-! Descriptors -/

theorem mem_of_lookup {fds : List (ℤ × ℕ)} {fd : ℤ} (h : fds.lookup fd = some a) : (fd, a) ∈ fds := by
  obtain ⟨l, r, rfl, -⟩ := List.lookup_eq_some_iff.mp h
  exact List.mem_append_right _ (List.mem_cons_self ..)

theorem lookup_cons_of_mem {fds : List (ℤ × ℕ)} {fd fd' : ℤ} (hnew : fd' ∉ fds.map Prod.fst)
    (h : fds.lookup fd = some a) : List.lookup fd ((fd', b) :: fds) = some a := by
  have hne : fd ≠ fd' := by
    rintro rfl
    exact hnew (List.mem_map.mpr ⟨_, mem_of_lookup h, rfl⟩)
  rw [List.lookup_cons, beq_false_of_ne hne, h]

theorem lookup_filter {fds : List (ℤ × ℕ)} {fd fd' : ℤ} (hne : fd' ≠ fd) :
    (fds.filter fun p => p.1 ≠ fd).lookup fd' = fds.lookup fd' := by
  induction fds with
  | nil => rfl
  | cons p ps ih =>
    obtain ⟨fd₀, b⟩ := p
    rcases eq_or_ne fd₀ fd with rfl | hp
    · rw [List.filter_cons_of_neg (by simp), ih, List.lookup_cons, beq_false_of_ne hne]
    · rw [List.filter_cons_of_pos (by simpa using hp), List.lookup_cons, List.lookup_cons, ih]

theorem socketOf_eq_some {fd : ℤ} :
    w.socketOf fd = some (a, s) ↔ w.fds.lookup fd = some a ∧ w.heap a = some s := by
  rw [World.socketOf, Option.bind_eq_some_iff]
  constructor
  · rintro ⟨b, hb, hs⟩
    obtain ⟨t, ht, heq⟩ := Option.map_eq_some_iff.mp hs
    rw [Prod.mk.injEq] at heq
    obtain ⟨rfl, rfl⟩ := heq
    exact ⟨hb, ht⟩
  · rintro ⟨ha, hs⟩
    exact ⟨a, ha, by rw [hs]; rfl⟩

/-- What the run keeps beside the tables. -/
structure Owned (w : World) : Prop where
  listens : ∀ a s, w.heap a = some s → Listening s → Bound s
  collect : ∀ a ∈ w.collect, ∃ s, w.heap a = some s ∧ ¬ Bound s ∧ Closed s
  collectNodup : w.collect.Nodup
  sockets : (w.fds.map Prod.snd).Nodup
  held : ∀ fd ∈ w.held, ∃ a s, w.fds.lookup fd = some a ∧ w.heap a = some s ∧ Bound s
  /-- a connection that waits for `accept()` has no descriptor -/
  waiting : ∀ c s, w.heap c = some s → s.parent ≠ none → ∀ p ∈ w.fds, p.2 ≠ c

/-- Every held descriptor has its socket, and every bound socket is filed under its port. -/
structure Inv (w : World) : Prop extends Owned w where
  filed : Filed w.heap w.tables

theorem Owned.eq_of_lookup (h : Owned w) {fd fd' : ℤ} (ha : w.fds.lookup fd = some a)
    (hb : w.fds.lookup fd' = some a) : fd = fd' := by
  have hpair := List.inj_on_of_nodup_map h.sockets (mem_of_lookup ha) (mem_of_lookup hb) rfl
  exact (Prod.mk.inj hpair).1

/-- What a call on the socket at `a` may change: a deleted socket stays deleted, a bound one bound. -/
structure Change (w w' : World) (a : ℕ) (s s' : PicoSocket) : Prop where
  heap : w'.heap = Function.update w.heap a (some s')
  fds : w'.fds = w.fds
  collect : w'.collect = w.collect
  held : w'.held = w.held
  parent : s'.parent = none ∨ s'.parent = s.parent
  bound : Bound s → Bound s'
  listens : Listening s' → Listening s ∨ Bound s'
  closed : Closed s → ¬ Bound s → Closed s' ∧ ¬ Bound s'

theorem Owned.change {w' : World} (h : Owned w) (hs : w.heap a = some s) (hc : Change w w' a s s') :
    Owned w' where
  listens := by
    intro b t ht hl
    rw [hc.heap] at ht
    rcases eq_or_ne b a with rfl | hne
    · rw [Function.update_self, Option.some.injEq] at ht
      subst ht
      rcases hc.listens hl with hl | hb
      · exact hc.bound (h.listens b s hs hl)
      · exact hb
    · rw [Function.update_of_ne hne] at ht
      exact h.listens b t ht hl
  collect := by
    rw [hc.collect, hc.heap]
    intro b hb
    obtain ⟨t, ht, hbt, hct⟩ := h.collect b hb
    rcases eq_or_ne b a with rfl | hne
    · rw [hs, Option.some.injEq] at ht
      subst ht
      obtain ⟨hclosed, hunbound⟩ := hc.closed hct hbt
      exact ⟨s', Function.update_self .., hunbound, hclosed⟩
    · exact ⟨t, by rw [Function.update_of_ne hne, ht], hbt, hct⟩
  collectNodup := hc.collect ▸ h.collectNodup
  sockets := hc.fds ▸ h.sockets
  held := by
    rw [hc.held, hc.fds, hc.heap]
    intro fd hfd
    obtain ⟨b, t, hb, ht, hbt⟩ := h.held fd hfd
    rcases eq_or_ne b a with rfl | hne
    · rw [hs, Option.some.injEq] at ht
      exact ⟨b, s', hb, Function.update_self .., hc.bound (ht ▸ hbt)⟩
    · exact ⟨b, t, hb, by rw [Function.update_of_ne hne, ht], hbt⟩
  waiting := by
    rw [hc.fds, hc.heap]
    intro c t ht hp
    rcases eq_or_ne c a with rfl | hne
    · rw [Function.update_self, Option.some.injEq] at ht
      subst ht
      rcases hc.parent with hnone | hsame
      · exact absurd hnone hp
      · exact h.waiting c s hs (hsame ▸ hp)
    · rw [Function.update_of_ne hne] at ht
      exact h.waiting c t ht hp

theorem Change.put (hstate : s'.state = s.state) (hparent : s'.parent = none ∨ s'.parent = s.parent) :
    Change w (w.put a s') a s s' := by
  have hbound : Bound s' ↔ Bound s := by rw [Bound, Bound, hstate]
  have hclosed : Closed s' ↔ Closed s := by rw [Closed, Closed, hstate]
  have hlistening : Listening s' ↔ Listening s := by rw [Listening, Listening, hstate]
  refine ⟨rfl, rfl, rfl, rfl, hparent, hbound.mpr, fun hl => .inl (hlistening.mp hl), ?_⟩
  exact fun hc hb => ⟨hclosed.mpr hc, hbound.not.mpr hb⟩

theorem Change.refl (hs : w.heap a = some s) : Change w w a s s := by
  refine ⟨?_, rfl, rfl, rfl, .inr rfl, id, .inl, fun hc hb => ⟨hc, hb⟩⟩
  rw [← hs, Function.update_eq_self]

theorem Change.trans {u w' : World} {t : PicoSocket} (h : Change w u a s t)
    (h' : Change u w' a t s') : Change w w' a s s' where
  heap := by rw [h'.heap, h.heap, Function.update_idem]
  fds := h'.fds.trans h.fds
  collect := h'.collect.trans h.collect
  held := h'.held.trans h.held
  parent := by
    rcases h'.parent with hnone | hsame
    · exact .inl hnone
    · exact hsame ▸ h.parent
  bound := h'.bound ∘ h.bound
  listens := by
    intro hl
    rcases h'.listens hl with hl | hb
    · exact (h.listens hl).imp_right h'.bound
    · exact .inr hb
  closed := by
    intro hc hb
    obtain ⟨hc, hb⟩ := h.closed hc hb
    exact h'.closed hc hb

/-- Adding a socket that has not been deleted. -/
theorem Change.add (hparent : s'.parent = s.parent) (hc : ¬ Closed s)
    (hsp : w.tables s'.proto s'.localPort ≠ none ∨ env.sockport = true) :
    Change w (picoSocketAdd w a s' env).1 a s (boundSocket s') := by
  rw [picoSocketAdd_eq hsp]
  refine ⟨rfl, rfl, rfl, rfl, .inr hparent, fun _ => bound_boundSocket, fun _ => .inr bound_boundSocket, ?_⟩
  exact fun hclosed => absurd hclosed hc

/-- The state after `pico_socket_alter_state`. -/
def alterSocket (s : PicoSocket) (more less tcp : BitVec 16) : PicoSocket :=
  let state := (s.state ||| more) &&& ~~~ less
  { s with state := if tcp = 0 then state else state &&& 0x00FF ||| tcp }

theorem picoSocketAlterState_eq {more less tcp : BitVec 16} (hs : w.heap a = some s)
    (hsp : w.tables s.proto s.localPort ≠ none) :
    picoSocketAlterState w a more less tcp = (w.put a (alterSocket s more less tcp), 0) := by
  rw [picoSocketAlterState, hs]
  exact if_neg hsp

/-- The masks leave the `BOUND` bit as it is. -/
theorem bound_alterSocket {more less tcp : BitVec 16} (hmore : more[2] = false)
    (hless : less[2] = false) (htcp : tcp[2] = false) :
    Bound (alterSocket s more less tcp) ↔ Bound s := by
  rw [Bound, Bound, alterSocket]
  dsimp only
  split <;> simp [hmore, hless, htcp]

/-- A change of the state of a registered socket. -/
theorem Inv.alter (h : Inv w) (hs : w.heap a = some s) (hb : Bound s) (more less tcp : BitVec 16)
    (hmore : more[2] = false) (hless : less[2] = false)
    (htcp : tcp[2] = false) :
    Filed (picoSocketAlterState w a more less tcp).1.heap
        (picoSocketAlterState w a more less tcp).1.tables ∧
      Change w (picoSocketAlterState w a more less tcp).1 a s (alterSocket s more less tcp) := by
  have hbound := bound_alterSocket hmore hless htcp (s := s)
  rw [picoSocketAlterState_eq hs (h.filed.tables_ne_none hs hb)]
  refine ⟨h.filed.put (Moves.of_key h.filed hs hbound rfl rfl rfl), ?_⟩
  refine ⟨rfl, rfl, rfl, rfl, .inr rfl, hbound.mpr, fun _ => .inr (hbound.mpr hb), ?_⟩
  exact fun _ hunbound => absurd hb hunbound

/-- A call on the socket at `a` that keeps the table in order; if it returns 0 the socket is bound. -/
structure Call (w : World) (a : ℕ) (s : PicoSocket) (r : World × ℤ) : Prop where
  filed : Filed r.1.heap r.1.tables
  change : ∃ s', Change w r.1 a s s' ∧ (r.2 = 0 → Bound s')

theorem Inv.call (h : Inv w) (hs : w.heap a = some s) {r : World × ℤ} (hc : Call w a s r) :
    Inv r.1 := by
  obtain ⟨s', hchange, -⟩ := hc.change
  exact ⟨h.toOwned.change hs hchange, hc.filed⟩

theorem Call.refused (h : Inv w) (hs : w.heap a = some s) : Call w a s (w, -1) :=
  ⟨h.filed, s, Change.refl hs, fun h0 : (-1 : ℤ) = 0 => absurd h0 (by decide)⟩

theorem bindPort_ne_zero {c : BindCall} {port : BitVec 16} (h : bindPort w s c = some port) :
    port ≠ 0 := by
  simp only [bindPort] at h
  generalize (if c.port = 0 then picoSocketHighPort c.rand else c.port) = p at h
  rw [ite_eq_iff] at h
  obtain ⟨-, hnone⟩ | ⟨-, h⟩ := h
  · cases hnone
  · rw [ite_eq_iff] at h
    obtain ⟨-, hnone⟩ | ⟨hp, h⟩ := h
    · cases hnone
    · rw [ite_eq_iff] at h
      obtain ⟨-, hnone⟩ | ⟨-, h⟩ := h
      · cases hnone
      · exact Option.some.inj h ▸ hp

/-- BIND keeps the table in order. -/
theorem picoSocketBind_call (h : Inv w) (hs : w.heap a = some s) {c : BindCall}
    (hc : BindApart w a s c) : Call w a s (picoSocketBind w a s c) := by
  rw [picoSocketBind]
  cases hport : bindPort w s c with
  | none => exact Call.refused h hs
  | some port =>
    obtain ⟨hclosed, hsame, hfits⟩ := hc port hport
    have hne := bindPort_ne_zero hport
    have hmoves : ∀ t, w.heap a = some t → Bound t →
        t.proto = (bindSocket s c port).proto ∧ t.localPort = (bindSocket s c port).localPort := by
      intro t ht hb
      rw [hs, Option.some.injEq] at ht
      subst ht
      exact ⟨rfl, (hsame hb).symm⟩
    by_cases hsp : w.tables s.proto port ≠ none ∨ c.env.sockport = true
    · refine ⟨h.filed.add (hfits hsp) hsp hne hmoves, boundSocket (bindSocket s c port), ?_, ?_⟩
      · exact Change.add rfl hclosed hsp
      · exact fun _ => bound_boundSocket
    · rw [not_or, not_not, Bool.not_eq_true] at hsp
      have hunbound : ¬ Bound s := by
        intro hb
        exact h.filed.tables_ne_none hs hb (hsame hb ▸ hsp.1)
      have hadd := picoSocketAdd_none (a := a) (s := bindSocket s c port) hsp.1 hsp.2
      simp only [hadd]
      refine ⟨h.filed.put (Moves.of_unbound ?_ hunbound), bindSocket s c port, ?_, ?_⟩
      · intro t ht
        rw [hs, Option.some.injEq] at ht
        exact ht ▸ hunbound
      · exact Change.put rfl (.inr rfl)
      · exact fun h0 : (-1 : ℤ) = 0 => absurd h0 (by decide)

/-- A `connect()` that gives up before it adds the socket has changed the key where it is. -/
theorem connectPut_call (h : Inv w) (hs : w.heap a = some s) (hstate : s'.state = s.state)
    (hparent : s'.parent = s.parent) (hproto : s'.proto = s.proto)
    (hport : Bound s → s'.localPort = s.localPort)
    (hsorted : Bound s → Sorted (rank (Function.update w.heap a (some s')))
      (tree w.tables s.proto s.localPort)) : Call w a s (w.put a s', -1) := by
  have hbound : Bound s' ↔ Bound s := by rw [Bound, Bound, hstate]
  refine ⟨h.filed.put ⟨fun hb => ⟨s, hs, hbound.mp hb⟩, ?_⟩, s', Change.put hstate (.inr hparent), ?_⟩
  · intro t ht hb
    rw [hs, Option.some.injEq] at ht
    subst ht
    exact ⟨hbound.mpr hb, hproto, hport hb, hsorted hb⟩
  · exact fun h0 : (-1 : ℤ) = 0 => absurd h0 (by decide)

/-- The rest of `connect()` only changes the state. -/
theorem Call.alter {w' : World} (h : Inv w) (hs : w.heap a = some s) (hc : Call w a s (w', 0))
    (more less : BitVec 16) (hmore : more[2] = false) (hless : less[2] = false) :
    Call w a s ((picoSocketAlterState w' a more less 0).1, 0) := by
  have hinv := h.call hs hc
  obtain ⟨s', hchange, hb⟩ := hc.change
  have hs' : w'.heap a = some s' := by rw [hchange.heap, Function.update_self]
  obtain ⟨hfiled, halter⟩ := hinv.alter hs' (hb rfl) more less 0 hmore hless rfl
  exact ⟨hfiled, _, hchange.trans halter, fun _ => halter.bound (hb rfl)⟩

/-- CONNECT keeps the table in order. -/
theorem picoSocketConnect_call (h : Inv w) (hs : w.heap a = some s) {c : ConnectCall}
    (hc : ConnectApart w a s c) : Call w a s (picoSocketConnect w a s c) := by
  rw [picoSocketConnect]
  by_cases hzero : c.port = 0
  · rw [if_pos hzero]
    exact Call.refused h hs
  rw [if_neg hzero]
  obtain ⟨hsorted, hadd⟩ := hc.resolve_left hzero
  have hport : Bound s → (connectPorts s c).localPort = s.localPort :=
    fun hb => if_neg (h.filed.port a s hs hb)
  have hrank : rank (Function.update w.heap a (some (connectSocket s c))) =
      rank (w.put a (connectPorts s c)).heap := by
    funext b
    rcases eq_or_ne b a with rfl | hne
    · rw [rank_update_self, World.put, rank_update_self]
      rfl
    · rw [rank_update_of_ne hne, World.put, rank_update_of_ne hne]
  by_cases hlocal : (connectPorts s c).localPort = 0
  · rw [if_pos hlocal]
    exact connectPut_call h hs rfl rfl rfl hport hsorted
  rw [if_neg hlocal]
  by_cases hsource : c.source = none
  · rw [if_pos hsource]
    exact connectPut_call h hs rfl rfl rfl hport (hrank ▸ hsorted)
  rw [if_neg hsource]
  obtain ⟨hclosed, hsp, hfits⟩ := hadd.resolve_left hsource
  have hcall : Call w a s ((picoSocketAdd w a (connectSocket s c) c.env).1, 0) := by
    refine ⟨h.filed.add hfits hsp hlocal ?_, _, Change.add rfl hclosed hsp, fun _ => bound_boundSocket⟩
    intro t ht hb
    rw [hs, Option.some.injEq] at ht
    subst ht
    exact ⟨rfl, (hport hb).symm⟩
  cases s.proto with
  | udp => exact hcall.alter h hs _ _ rfl rfl
  | tcp =>
    simp only
    split
    · exact hcall.alter h hs _ _ rfl rfl
    · obtain ⟨s', hchange, -⟩ := hcall.change
      exact ⟨hcall.filed, s', hchange, fun h0 : (-1 : ℤ) = 0 => absurd h0 (by decide)⟩

/-- LISTEN keeps the table in order. -/
theorem picoSocketListen_call (h : Inv w) (hs : w.heap a = some s) (backlog : ℤ) :
    Call w a s (picoSocketListen w a s backlog) := by
  rw [picoSocketListen]
  split
  · exact Call.refused h hs
  · rename_i hok
    have hb : Bound s := by
      by_contra hb
      exact hok (.inr (.inr (.inr hb)))
    obtain ⟨hfiled, hchange⟩ := h.alter hs hb picoSocketStateTcpSynSent 0
      picoSocketStateTcpListen rfl rfl rfl
    exact ⟨hfiled, _, hchange, fun _ => hchange.bound hb⟩

/-! The invariant -/

theorem Inv.grant {fd : ℤ} {r : World × ℤ} (h : Inv w) (hfd : w.fds.lookup fd = some a)
    (hs : w.heap a = some s) (hc : Call w a s r) : Inv (r.1.grant fd r.2) := by
  have hinv := h.call hs hc
  obtain ⟨s', hchange, hb⟩ := hc.change
  refine ⟨⟨hinv.listens, hinv.collect, hinv.collectNodup, hinv.sockets, ?_, hinv.waiting⟩, hinv.filed⟩
  intro fd' hfd'
  rw [World.grant] at hfd' ⊢
  dsimp only at hfd' ⊢
  split at hfd'
  · rename_i h0
    rcases List.mem_cons.mp hfd' with rfl | hold
    · refine ⟨a, s', hchange.fds ▸ hfd, ?_, hb h0⟩
      rw [hchange.heap, Function.update_self]
    · exact hinv.held fd' hold
  · exact hinv.held fd' hfd'

/-- A return value is no part of the invariant. -/
theorem Inv.ret (h : Inv w) (ret : ℤ) : Inv { w with ret := ret } := ⟨{ h.toOwned with }, h.filed⟩

/-- A descriptor that is closed frees nothing yet. -/
theorem Inv.erase (h : Inv w) (fd : ℤ) : Inv { w with
    fds := w.fds.filter fun p => p.1 ≠ fd
    held := w.held.filter fun fd' => fd' ≠ fd } := by
  refine ⟨⟨h.listens, h.collect, h.collectNodup, ?_, ?_, ?_⟩, h.filed⟩
  · exact h.sockets.sublist (List.filter_sublist.map _)
  · intro fd' hfd'
    obtain ⟨hold, hne⟩ := List.mem_filter.mp hfd'
    obtain ⟨b, t, hb, ht, hbt⟩ := h.held fd' hold
    exact ⟨b, t, by rw [lookup_filter (of_decide_eq_true hne), hb], ht, hbt⟩
  · intro c t ht hp p hp'
    exact h.waiting c t ht hp p (List.mem_of_mem_filter hp')

/-- Nobody holds the socket of a closed descriptor. -/
theorem Owned.not_held (h : Owned w) {fd : ℤ} (hfd : w.fds.lookup fd = some a) :
    ∀ fd' ∈ w.held.filter (fun fd' => fd' ≠ fd),
      (w.fds.filter fun p => p.1 ≠ fd).lookup fd' ≠ some a := by
  intro fd' hfd' heq
  have hne : fd' ≠ fd := of_decide_eq_true (List.mem_filter.mp hfd').2
  rw [lookup_filter hne] at heq
  exact hne (h.eq_of_lookup heq hfd)

/-- Deleting a bound socket that nobody holds. -/
theorem Owned.del {w' : World} (h : Owned w) (hs : w.heap a = some s) (hb : Bound s)
    (hheap : w'.heap = Function.update w.heap a (some (closedSocket s)))
    (hcollect : w'.collect = a :: w.collect) (hfds : w'.fds = w.fds)
    (hheld : ∀ fd ∈ w'.held, fd ∈ w.held ∧ w.fds.lookup fd ≠ some a) : Owned w' where
  listens := by
    intro b t ht hl
    rw [hheap] at ht
    rcases eq_or_ne b a with rfl | hne
    · rw [Function.update_self, Option.some.injEq] at ht
      subst ht
      exact absurd hl (by change ¬ picoSocketStateClosed &&& picoSocketStateTcp = _; decide)
    · rw [Function.update_of_ne hne] at ht
      exact h.listens b t ht hl
  collect := by
    rw [hcollect, hheap]
    intro b hbc
    rcases eq_or_ne b a with rfl | hne
    · exact ⟨closedSocket s, Function.update_self .., not_bound_closedSocket, closed_closedSocket⟩
    · obtain ⟨t, ht, hbt⟩ := h.collect b ((List.mem_cons.mp hbc).resolve_left hne)
      exact ⟨t, by rw [Function.update_of_ne hne, ht], hbt⟩
  collectNodup := by
    rw [hcollect, List.nodup_cons]
    refine ⟨?_, h.collectNodup⟩
    intro ha
    obtain ⟨t, ht, hbt, -⟩ := h.collect a ha
    rw [hs, Option.some.injEq] at ht
    exact hbt (ht ▸ hb)
  sockets := hfds ▸ h.sockets
  held := by
    rw [hfds, hheap]
    intro fd hfd
    obtain ⟨hold, hother⟩ := hheld fd hfd
    obtain ⟨b, t, hb, ht, hbt⟩ := h.held fd hold
    have hne : b ≠ a := fun heq => hother (heq ▸ hb)
    exact ⟨b, t, hb, by rw [Function.update_of_ne hne, ht], hbt⟩
  waiting := by
    rw [hfds, hheap]
    intro c t ht hp
    rcases eq_or_ne c a with rfl | hne
    · rw [Function.update_self, Option.some.injEq] at ht
      subst ht
      exact h.waiting c s hs hp
    · rw [Function.update_of_ne hne] at ht
      exact h.waiting c t ht hp

theorem Inv.del (h : Inv w) (hs : w.heap a = some s) (hb : Bound s)
    (hheld : ∀ fd ∈ w.held, w.fds.lookup fd ≠ some a) (balance : Balance) :
    Inv (picoSocketDel w a s balance).1 := by
  obtain ⟨tables, hdel, hfiled⟩ := h.filed.del hs hb balance
  rw [hdel]
  exact ⟨h.toOwned.del hs hb rfl rfl rfl fun fd hfd => ⟨hfd, hheld fd hfd⟩, hfiled⟩

/-- The stack deletes a bound socket, and its descriptor holds it no longer. -/
theorem Inv.drop (h : Inv w) (hs : w.heap a = some s) (hb : Bound s) (balance : Balance) :
    Inv ((picoSocketDel w a s balance).1.drop a) ∧ (picoSocketDel w a s balance).2 = 0 := by
  obtain ⟨tables, hdel, hfiled⟩ := h.filed.del hs hb balance
  rw [hdel]
  refine ⟨⟨h.toOwned.del hs hb rfl rfl rfl ?_, hfiled⟩, rfl⟩
  intro fd hfd
  obtain ⟨hold, hother⟩ := List.mem_filter.mp hfd
  exact ⟨hold, of_decide_eq_true hother⟩

/-- Freeing a socket that is not bound. -/
theorem Owned.free {w' : World} (h : Owned w) (hs : ∀ s, w.heap a = some s → ¬ Bound s)
    (hheap : w'.heap = Function.update w.heap a none) (hfds : w'.fds = w.fds)
    (hheld : w'.held = w.held) (hcollect : w'.collect.Nodup)
    (hmem : ∀ b ∈ w'.collect, b ∈ w.collect ∧ b ≠ a) : Owned w' where
  listens := by
    intro b t ht hl
    rw [hheap] at ht
    rcases eq_or_ne b a with rfl | hne
    · rw [Function.update_self] at ht
      cases ht
    · rw [Function.update_of_ne hne] at ht
      exact h.listens b t ht hl
  collect := by
    rw [hheap]
    intro b hb
    obtain ⟨hold, hne⟩ := hmem b hb
    obtain ⟨t, ht, hbt⟩ := h.collect b hold
    exact ⟨t, by rw [Function.update_of_ne hne, ht], hbt⟩
  collectNodup := hcollect
  sockets := hfds ▸ h.sockets
  held := by
    rw [hfds, hheld, hheap]
    intro fd hfd
    obtain ⟨b, t, hb, ht, hbt⟩ := h.held fd hfd
    have hne : b ≠ a := by
      rintro rfl
      exact hs t ht hbt
    exact ⟨b, t, hb, by rw [Function.update_of_ne hne, ht], hbt⟩
  waiting := by
    rw [hfds, hheap]
    intro c t ht hp
    rcases eq_or_ne c a with rfl | hne
    · rw [Function.update_self] at ht
      cases ht
    · rw [Function.update_of_ne hne] at ht
      exact h.waiting c t ht hp

/-- A new socket where none was, that no descriptor names yet. -/
theorem Owned.alloc {w' : World} (h : Owned w) (ha : w.heap a = none) (hnew : Unused w a)
    (hheap : w'.heap = Function.update w.heap a (some s)) (hfds : w'.fds = w.fds)
    (hheld : w'.held = w.held) (hcollect : w'.collect = w.collect) (hl : Listening s → Bound s) :
    Owned w' where
  listens := by
    intro b t ht hlt
    rw [hheap] at ht
    rcases eq_or_ne b a with rfl | hne
    · rw [Function.update_self, Option.some.injEq] at ht
      exact ht ▸ hl (ht ▸ hlt)
    · rw [Function.update_of_ne hne] at ht
      exact h.listens b t ht hlt
  collect := by
    rw [hcollect, hheap]
    intro b hb
    obtain ⟨t, ht, hbt⟩ := h.collect b hb
    have hne : b ≠ a := by
      rintro rfl
      rw [ha] at ht
      cases ht
    exact ⟨t, by rw [Function.update_of_ne hne, ht], hbt⟩
  collectNodup := hcollect ▸ h.collectNodup
  sockets := hfds ▸ h.sockets
  held := by
    rw [hheld, hfds, hheap]
    intro fd hfd
    obtain ⟨b, t, hb, ht, hbt⟩ := h.held fd hfd
    have hne : b ≠ a := by
      rintro rfl
      rw [ha] at ht
      cases ht
    exact ⟨b, t, hb, by rw [Function.update_of_ne hne, ht], hbt⟩
  waiting := by
    rw [hfds, hheap]
    intro c t ht hp
    rcases eq_or_ne c a with rfl | hne
    · exact hnew
    · rw [Function.update_of_ne hne] at ht
      exact h.waiting c t ht hp

/-- A new descriptor for a socket that has none. -/
theorem Owned.register {w' : World} {fd : ℤ} (h : Owned w) (hfd : fd ∉ w.fds.map Prod.fst)
    (ha : Unused w a) (hparent : ∀ s, w.heap a = some s → s.parent = none)
    (hfds : w'.fds = (fd, a) :: w.fds) (hheap : w'.heap = w.heap) (hcollect : w'.collect = w.collect)
    (hheld : ∀ fd' ∈ w'.held, fd' ∈ w.held ∨ fd' = fd ∧ ∃ s, w.heap a = some s ∧ Bound s) :
    Owned w' where
  listens := hheap ▸ h.listens
  collect := hcollect ▸ hheap ▸ h.collect
  collectNodup := hcollect ▸ h.collectNodup
  sockets := by
    rw [hfds, List.map_cons, List.nodup_cons]
    refine ⟨?_, h.sockets⟩
    intro hmem
    obtain ⟨p, hp, heq⟩ := List.mem_map.mp hmem
    exact ha p hp heq
  held := by
    rw [hfds, hheap]
    intro fd' hfd'
    rcases hheld fd' hfd' with hold | ⟨rfl, s, hs, hb⟩
    · obtain ⟨b, t, hb, ht, hbt⟩ := h.held fd' hold
      exact ⟨b, t, lookup_cons_of_mem hfd hb, ht, hbt⟩
    · exact ⟨a, s, List.lookup_cons_self, hs, hb⟩
  waiting := by
    rw [hfds, hheap]
    intro c t ht hp p hmem
    rcases List.mem_cons.mp hmem with rfl | hmem
    · rintro rfl
      exact hp (hparent t ht)
    · exact h.waiting c t ht hp p hmem

theorem bound_tcpState (tcp : BitVec 16) :
    Bound { s with state := s.state &&& 0x00FF ||| tcp &&& picoSocketStateTcp } ↔ Bound s := by
  rw [Bound, Bound]
  simp

/-- A TCP state other than `LISTEN` is set on a bound socket. -/
theorem Inv.setTcp (h : Inv w) (hs : w.heap a = some s) (hb : Bound s) (tcp : BitVec 16) :
    Inv (w.put a { s with state := s.state &&& 0x00FF ||| tcp &&& picoSocketStateTcp }) := by
  have hbound := bound_tcpState (s := s) tcp
  refine ⟨h.toOwned.change hs ⟨rfl, rfl, rfl, rfl, .inr rfl, hbound.mpr, ?_, ?_⟩, ?_⟩
  · exact fun _ => .inr (hbound.mpr hb)
  · exact fun _ hunbound => absurd hb hunbound
  · exact h.filed.put (Moves.of_key h.filed hs hbound rfl rfl rfl)

theorem picoTcpNotifyClosing_eq (s : PicoSocket) (outEmpty : Bool) :
    picoTcpNotifyClosing s outEmpty = s ∨ ∃ tcp, picoTcpNotifyClosing s outEmpty =
      { s with state := s.state &&& 0x00FF ||| tcp &&& picoSocketStateTcp } := by
  rw [picoTcpNotifyClosing]
  split
  · exact .inl rfl
  · split
    · exact .inr ⟨picoSocketStateTcpFinWait1, rfl⟩
    · split
      · exact .inr ⟨picoSocketStateTcpLastAck, rfl⟩
      · exact .inl rfl

/-- CLOSE of a socket that nobody holds. -/
theorem Inv.close (h : Inv w) (hs : w.heap a = some s)
    (hheld : ∀ fd ∈ w.held, w.fds.lookup fd ≠ some a) (outEmpty : Bool) (balance : Balance) :
    Inv (picoSocketClose w a s outEmpty balance) := by
  rw [picoSocketClose]
  by_cases hl : s.proto = .tcp ∧ Listening s
  · rw [if_pos hl]
    exact h.del hs (h.listens a s hs hl.2) hheld balance
  rw [if_neg hl]
  by_cases hc : Closed s
  · rw [if_pos hc]
    exact h
  rw [if_neg hc]
  by_cases hb : Bound s
  · rw [if_neg (not_not_intro hb)]
    cases s.proto with
    | udp => exact h.del hs hb hheld balance
    | tcp =>
      obtain ⟨hfiled, hchange⟩ := h.alter hs hb picoSocketStateShut 0 0 rfl rfl rfl
      have hinv : Inv (picoSocketAlterState w a picoSocketStateShut 0 0).1 :=
        ⟨h.toOwned.change hs hchange, hfiled⟩
      have hs' : (picoSocketAlterState w a picoSocketStateShut 0 0).1.heap a =
          some (alterSocket s picoSocketStateShut 0 0) := by
        rw [hchange.heap, Function.update_self]
      simp only [hs']
      obtain heq | ⟨tcp, heq⟩ := picoTcpNotifyClosing_eq (alterSocket s picoSocketStateShut 0 0) outEmpty
      · rw [heq, World.put, ← hs', Function.update_eq_self]
        exact hinv
      · rw [heq]
        exact hinv.setTcp hs' (hchange.bound hb) tcp
  · rw [if_pos hb]
    have hunbound : ∀ t, w.heap a = some t → ¬ Bound t := by
      intro t ht
      rw [hs, Option.some.injEq] at ht
      exact ht ▸ hb
    refine ⟨h.toOwned.free hunbound rfl rfl rfl h.collectNodup ?_, h.filed.free hunbound⟩
    intro b hmem
    refine ⟨hmem, ?_⟩
    rintro rfl
    obtain ⟨t, ht, -, hct⟩ := h.collect b hmem
    rw [hs, Option.some.injEq] at ht
    exact hc (ht ▸ hct)

theorem picoSocketAccept_eq_some {l c : ℕ} (h : picoSocketAccept w l s = some c) :
    c ∈ (tree w.tables .tcp s.localPort).toList ∧ (deref w.heap c).parent = some l := by
  rw [picoSocketAccept] at h
  split at h
  · cases h
  · have hfound := List.find?_some h
    simp only [decide_eq_true_eq] at hfound
    exact ⟨List.mem_of_find?_eq_some h, hfound.1⟩

/-- SOCKET: a new socket is bound nowhere. -/
theorem Inv.socket {fd : ℤ} (h : Inv w) (ha : w.heap a = none) (hfd : fd ∉ w.fds.map Prod.fst)
    (hunused : Unused w a) (isIpv6 : Bool) (proto : Proto) : Inv
      { w.put a (picoSocketOpen isIpv6 proto) with fds := (fd, a) :: w.fds, ret := fd } := by
  have hunbound : ¬ Bound (picoSocketOpen isIpv6 proto) := by
    change ¬ (0 : BitVec 16).getLsbD 2 = true
    decide
  have hself : (w.put a (picoSocketOpen isIpv6 proto)).heap a =
      some (picoSocketOpen isIpv6 proto) := Function.update_self ..
  have hput : Owned (w.put a (picoSocketOpen isIpv6 proto)) := by
    refine h.toOwned.alloc ha hunused rfl rfl rfl rfl ?_
    intro hl
    exact absurd hl (by change ¬ 0 &&& picoSocketStateTcp = _; decide)
  refine ⟨hput.register hfd hunused ?_ rfl rfl rfl fun fd' hfd' => .inl hfd', ?_⟩
  · intro s hs
    rw [hself, Option.some.injEq] at hs
    exact hs ▸ rfl
  · refine h.filed.put (Moves.of_unbound ?_ hunbound)
    intro s hs
    rw [ha] at hs
    cases hs

/-- ACCEPT: the connection that is taken over has its place in the table already. -/
theorem Inv.accept {l c : ℕ} {newFd : ℤ} (h : Inv w) (hacc : picoSocketAccept w l s = some c)
    (hnew : newFd ∉ w.fds.map Prod.fst) :
    Inv (w.put c { deref w.heap c with parent := none }) ∧
      Inv { w.put c { deref w.heap c with parent := none } with
        fds := (newFd, c) :: w.fds, held := newFd :: w.held, ret := newFd } := by
  obtain ⟨hmem, hparent⟩ := picoSocketAccept_eq_some hacc
  obtain ⟨t, ht, hbt, hproto, hport⟩ := h.filed.mem _ _ c hmem
  have hderef : deref w.heap c = t := by rw [deref, ht, Option.getD_some]
  rw [hderef] at hparent ⊢
  have hput : Inv (w.put c { t with parent := none }) := by
    refine ⟨h.toOwned.change ht (Change.put rfl (.inl rfl)), ?_⟩
    exact h.filed.put (Moves.of_key h.filed ht Iff.rfl rfl rfl rfl)
  have hheap : (w.put c { t with parent := none }).heap c = some { t with parent := none } :=
    Function.update_self ..
  have hunused : Unused (w.put c { t with parent := none }) c :=
    h.waiting c t ht (by rw [hparent]; exact Option.some_ne_none l)
  refine ⟨hput, hput.toOwned.register hnew hunused ?_ rfl rfl rfl ?_, hput.filed⟩
  · intro s hs
    rw [hheap, Option.some.injEq] at hs
    exact hs ▸ rfl
  · intro fd' hfd'
    rcases List.mem_cons.mp hfd' with rfl | hold
    · exact .inr ⟨rfl, _, hheap, hbt⟩
    · exact .inl hold

/-- SYN: the clone goes to the port of its listener, which is in the table. -/
theorem Inv.syn {l : ℕ} {sport : BitVec 16} {src dst : List UInt8} (h : Inv w)
    (hl : w.heap l = some s) (hlisten : Listening s) (ha : w.heap a = none) (hunused : Unused w a)
    (hfits : Fits w a (synSocket s l sport src dst) env) :
    Inv (picoSocketAdd w a (synSocket s l sport src dst) env).1 := by
  have hbl := h.listens l s hl hlisten
  have hsp := h.filed.tables_ne_none hl hbl
  have hadd : w.tables (synSocket s l sport src dst).proto
      (synSocket s l sport src dst).localPort ≠ none ∨ env.sockport = true := .inl hsp
  have hfiled := h.filed.add hfits hadd (h.filed.port l s hl hbl) (by
    intro t ht
    rw [ha] at ht
    cases ht)
  refine ⟨?_, hfiled⟩
  rw [picoSocketAdd_eq hadd]
  exact h.toOwned.alloc ha hunused rfl rfl rfl rfl fun _ => bound_boundSocket

/-- GC: what is collected is bound nowhere. -/
theorem Inv.gc (h : Inv w) (hmem : a ∈ w.collect) :
    Inv { w.free a with collect := w.collect.erase a } := by
  have hunbound : ∀ t, w.heap a = some t → ¬ Bound t := by
    intro t ht
    obtain ⟨r, hr, hb, -⟩ := h.collect a hmem
    rw [hr, Option.some.injEq] at ht
    exact ht ▸ hb
  refine ⟨h.toOwned.free hunbound rfl rfl rfl (h.collectNodup.erase a) ?_, h.filed.free hunbound⟩
  intro b hb
  exact ((h.collectNodup.mem_erase_iff).mp hb).symm

/-- STEP: a step that keeps apart what the table cannot tell apart keeps the invariant. -/
theorem inv_step {w' : World} {act : Act} (h : Inv w) (hc : Apart w act)
    (hs : step w act = some w') : Inv w' := by
  cases act with
  | socket fd a isIpv6 proto =>
    rw [step, Option.ite_none_right_eq_some, Option.some.injEq] at hs
    obtain ⟨⟨ha, hfd⟩, rfl⟩ := hs
    exact h.socket ha hfd hc isIpv6 proto
  | bind fd call =>
    obtain ⟨⟨a, s⟩, hsock, rfl⟩ := Option.map_eq_some_iff.mp hs
    obtain ⟨hfd, hheap⟩ := socketOf_eq_some.mp hsock
    cases call with
    | none => exact h.ret _
    | some c => exact h.grant hfd hheap (picoSocketBind_call h hheap (hc (a, s) hsock))
  | connect fd call =>
    obtain ⟨⟨a, s⟩, hsock, rfl⟩ := Option.map_eq_some_iff.mp hs
    obtain ⟨hfd, hheap⟩ := socketOf_eq_some.mp hsock
    cases call with
    | none => exact h.ret _
    | some c => exact h.grant hfd hheap (picoSocketConnect_call h hheap (hc (a, s) hsock))
  | listen fd backlog =>
    obtain ⟨⟨a, s⟩, hsock, rfl⟩ := Option.map_eq_some_iff.mp hs
    obtain ⟨-, hheap⟩ := socketOf_eq_some.mp hsock
    exact (h.call hheap (picoSocketListen_call h hheap backlog)).ret _
  | accept fd newFd created =>
    obtain ⟨⟨l, s⟩, hsock, hs⟩ := Option.bind_eq_some_iff.mp hs
    dsimp only at hs
    cases hacc : picoSocketAccept w l s with
    | none =>
      simp only [hacc, Option.some.injEq] at hs
      subst hs
      exact h.ret _
    | some c =>
      simp only [hacc, Option.ite_none_left_eq_some] at hs
      obtain ⟨hnew, hs⟩ := hs
      obtain ⟨hput, hcreated⟩ := h.accept hacc hnew
      split at hs <;> rw [Option.some.injEq] at hs <;> subst hs
      · exact hcreated
      · exact hput.ret _
  | close fd outEmpty balance =>
    obtain ⟨⟨a, s⟩, hsock, rfl⟩ := Option.map_eq_some_iff.mp hs
    obtain ⟨hfd, hheap⟩ := socketOf_eq_some.mp hsock
    exact (h.erase fd).close hheap (h.toOwned.not_held hfd) outEmpty balance
  | syn l a sport src dst env =>
    simp only [step] at hs
    split at hs
    · rename_i s hl ha
      rw [Option.ite_none_right_eq_some, Option.some.injEq] at hs
      obtain ⟨hlisten, rfl⟩ := hs
      exact h.syn hl hlisten ha hc.1 (hc.2 s hl)
    · cases hs
  | tcp a state =>
    simp only [step] at hs
    split at hs
    · rename_i s hheap
      rw [Option.ite_none_right_eq_some, Option.some.injEq] at hs
      obtain ⟨⟨hcheck, -⟩, rfl⟩ := hs
      exact h.setTcp hheap (h.filed.place hheap (picoCheckSocket_eq_zero.mp hcheck)).1 state
    · cases hs
  | del a balance =>
    obtain ⟨s, hheap, rfl⟩ := Option.map_eq_some_iff.mp hs
    dsimp only
    rcases hc s hheap with hb | hnone
    · obtain ⟨hinv, hret⟩ := h.drop hheap hb balance
      rw [if_pos hret]
      exact hinv
    · simp only [picoSocketDel, hnone]
      exact h
  | gc a =>
    rw [step, Option.ite_none_right_eq_some, Option.some.injEq] at hs
    obtain ⟨⟨hmem, -⟩, rfl⟩ := hs
    exact h.gc hmem

theorem inv_begin : Inv begin := by
  refine ⟨⟨?_, ?_, List.nodup_nil, List.nodup_nil, ?_, ?_⟩, ⟨?_, ?_, ?_, ?_⟩⟩ <;> intros
  · contradiction
  · contradiction
  · contradiction
  · contradiction
  · exact sorted_leaf
  · contradiction
  · contradiction
  · contradiction

theorem Inv.registered (h : Inv w) : Registered w := by
  intro fd hfd
  obtain ⟨a, s, hlookup, hs, hb⟩ := h.held fd hfd
  exact ⟨a, s, socketOf_eq_some.mpr ⟨hlookup, hs⟩,
    picoCheckSocket_eq_zero.mpr (h.filed.found a s hs hb)⟩

/-- REGISTERED: in a run whose steps all keep apart the sockets that the table takes for one, every
    descriptor that was bound, connected or accepted is found in the table. -/
theorem stays_registered {as : List Act} {w : World} (hr : run step begin as = some w)
    (hm : Meets step Apart begin as) : Registered w :=
  (run_keeps (fun _ _ _ hi hc hs => inv_step hi hc hs) inv_begin hm hr).registered

/-- DUPLICATE: where another socket is the same key, adding returns 0 and the socket is not in the
    table. -/
theorem picoSocketAdd_duplicate (h : Filed w.heap w.tables)
    (ha : a ∉ (tree w.tables s.proto s.localPort).toList)
    (hb : b ∈ (tree w.tables s.proto s.localPort).toList) (hkey : rank w.heap b = key s) :
    (picoSocketAdd w a s env).2 = 0 ∧
      picoCheckSocket (picoSocketAdd w a s env).1.tables a (boundSocket s) = -1 := by
  have hsome : w.tables s.proto s.localPort ≠ none := by
    intro hnone
    rw [tree, hnone] at hb
    cases hb
  have hrank : rank (w.put a s).heap b = rank (w.put a s).heap a := by
    rw [World.put, rank_update_self, rank_update_of_ne (ne_of_mem_of_not_mem hb ha), hkey]
  have hfind := ((Sorted.update (o := some s) (h.sorted _ _) ha).findKey_isSome
    (orders_rank _)).mpr ⟨b, hb, hrank⟩
  have hsame : (addTree w a s env).toList = (tree w.tables s.proto s.localPort).toList := by
    rw [addTree, env.balance.toList_rotate, KeyTree.insert]
    exact congrArg KeyTree.toList (if_pos (.inl hfind))
  rw [picoSocketAdd_eq (.inl hsome), if_pos (.inl (Option.isSome_iff_ne_none.mpr hsome))]
  have hset : setTree w.tables s.proto s.localPort (some (addTree w a s env)) (boundSocket s).proto
      (boundSocket s).localPort = some (addTree w a s env) := if_pos ⟨rfl, rfl⟩
  refine ⟨rfl, ?_⟩
  simp only [picoCheckSocket, hset, if_neg (hsame ▸ ha)]

/-- There is memory for everything, and nothing is rotated. -/
def plenty : AddEnv := ⟨true, true, true, ⟨id, fun _ => rfl⟩⟩

/-- An IPv4 address in its union. -/
def ipv4 (a b c d : UInt8) : List UInt8 := [a, b, c, d] ++ List.replicate 12 0

/-- A server binds and listens, takes two connections from different ports of one host, and accepts
    both; a client connects. -/
def serve : List Act :=
  [.socket 3 0 false .tcp, .bind 3 (some ⟨ipv4 10 0 0 1, 0x5000, true, 0, plenty⟩), .listen 3 5,
    .syn 0 1 0x1111 (ipv4 10 0 0 9) (ipv4 10 0 0 1) plenty, .tcp 1 picoSocketStateTcpEstablished,
    .syn 0 2 0x2222 (ipv4 10 0 0 9) (ipv4 10 0 0 1) plenty, .tcp 2 picoSocketStateTcpEstablished,
    .accept 3 4 true, .accept 3 5 true, .socket 6 3 false .tcp,
    .connect 6 (some ⟨ipv4 10 0 0 8, 0x5000, some (ipv4 10 0 0 1), 0, true, plenty⟩),
    .close 4 true plenty.balance, .del 1 plenty.balance, .gc 1]

theorem serve_runs : (run step begin serve).isSome := by
  decide +kernel

theorem stays_registered_serve : Registered (Option.get _ serve_runs) :=
  stays_registered (Option.some_get serve_runs).symm (by decide +kernel)

/-- Two sockets are bound to different addresses, on one port. -/
def bindTwo : List Act :=
  [.socket 3 0 false .udp, .bind 3 (some ⟨ipv4 10 0 0 1, 0x5000, true, 0, plenty⟩),
    .socket 4 1 false .udp, .bind 4 (some ⟨ipv4 10 0 0 2, 0x5000, true, 0, plenty⟩)]

theorem bindTwo_runs : (run step begin bindTwo).isSome := by
  decide +kernel

/-- The second `bind()` returns 0, and its socket is not in the table. -/
theorem second_bind_unregistered :
    ¬ ∀ (as : List Act) (w : World), run step begin as = some w → Registered w := by
  intro h
  have hheld : 4 ∈ (Option.get _ bindTwo_runs).held := by decide +kernel
  obtain ⟨a, s, hsock, hcheck⟩ := h bindTwo _ (Option.some_get bindTwo_runs).symm 4 hheld
  have hnone : ∀ p ∈ (Option.get _ bindTwo_runs).socketOf 4,
      picoCheckSocket (Option.get _ bindTwo_runs).tables p.1 p.2 = -1 := by decide +kernel
  rw [hnone (a, s) hsock] at hcheck
  exact absurd hcheck (by decide)

end FdPicotcp.PortTable
