import FdPicotcp.Table.Interpose

/-! The library has two front ends: `socket.c` overrides the libc functions, `fede_socket.c` has a
    hand-made copy of each under a `pico_` name.

    Both are programs over the same underlying calls (`Lib`), of which nothing is assumed. Two
    programs agree when they return the same value and leave the same memory and library state;
    what they print is left out. Seven of the copies are exact, `pico_accept` is not. -/

namespace FdPicotcp.FrontEnds
open FdTable
open Interpose (Build I32 Trap Nr trap ofInt ofUint)

variable {b : Build} {ω σ α β : Type}

/-- What ends a call before it returns. -/
inductive Stop where
  | fault (f : Fault)
  | nullPointer
  deriving DecidableEq

/-- One byte at each address. -/
abbrev Mem (b : Build) := b.Word → UInt8

/-- The process: its memory and all other state of the library and of what it calls. -/
structure Proc (b : Build) (ω : Type) where
  lib : ω
  mem : Mem b

/-- The process, and what has been printed so far. -/
structure State (b : Build) (ω : Type) extends Proc b ω where
  stdout : List String

/-- A C function of the front ends. -/
abbrev M (b : Build) (ω : Type) := StateT (State b ω) (Except Stop)

/-- An underlying call does not see what has been printed. -/
abbrev Fn (b : Build) (ω α : Type) := Proc b ω → Except Stop (α × Proc b ω)

/-- The kernel side of `socket()`, with or without a system call number of its own. -/
inductive SysCall (b : Build) where
  | of (t : Trap b)
  | socket (words : List b.Word)
  | socketcallSocket (words : List b.Word)

/-- What the front ends call. Pointers are words; a function that fills an array on the caller's
    stack returns what the array then holds. -/
structure Lib (b : Build) (ω σ : Type) where
  getSocketFromFd : I32 → Fn b ω (Option σ)
  getFdElemFromFd : I32 → Fn b ω (Option (FdElem σ))
  fdPicoSocketOpen : BitVec 16 → BitVec 16 → Fn b ω I32
  fdPicoSocketBind : I32 → String → BitVec 16 → Fn b ω I32
  fdPicoSocketListen : I32 → I32 → Fn b ω I32
  fdPicoSocketConnect : I32 → String → BitVec 16 → Fn b ω I32
  /-- the third argument is the `int *` for the port; with `str_addr` -/
  fdPicoSocketAccept : I32 → b.Word → Fn b ω (I32 × String)
  fdPicoSocketWrite : I32 → b.Word → I32 → Fn b ω I32
  fdPicoSocketRead : I32 → b.Word → I32 → Fn b ω I32
  fdPicoSocketClose : I32 → Fn b ω I32
  syscall : SysCall b → Fn b ω b.Word
  malloc : ℕ → Fn b ω b.Word
  inetNtoa : BitVec 32 → Fn b ω (Option String)
  /-- `inet_ntop(AF_INET6, addr, addr_string, size)` -/
  inetNtop : List UInt8 → I32 → Fn b ω String
  inetAddr : String → BitVec 32
  inetPton : String → Option (List UInt8)
  setFdErr : FdErr → Proc b ω → Proc b ω

/-- A call of what lies below the front ends. -/
def call (f : Fn b ω α) : M b ω α := fun s =>
  (f s.toProc).map fun (a, p) => (a, { s with toProc := p })

/-- The text goes to `stdout`. -/
def printf (text : String) : M b ω Unit := fun s =>
  .ok ((), { s with stdout := s.stdout ++ [text] })

/-- The bytes of a little-endian machine. -/
def bytes16 (v : BitVec 16) : List UInt8 := [⟨v.extractLsb' 0 8⟩, ⟨v.extractLsb' 8 8⟩]

/-- The same of 32 bits. -/
def bytes32 (v : BitVec 32) : List UInt8 :=
  [⟨v.extractLsb' 0 8⟩, ⟨v.extractLsb' 8 8⟩, ⟨v.extractLsb' 16 8⟩, ⟨v.extractLsb' 24 8⟩]

/-- Two bytes from an address on. -/
def load16 (m : Mem b) (a : b.Word) : BitVec 16 := (m (a + 1)).toBitVec ++ (m a).toBitVec

/-- Four bytes from an address on. -/
def load32 (m : Mem b) (a : b.Word) : BitVec 32 :=
  (m (a + 3)).toBitVec ++ (m (a + 2)).toBitVec ++ (m (a + 1)).toBitVec ++ (m a).toBitVec

/-- Bytes put at an address on; addresses wrap. -/
def store (m : Mem b) (a : b.Word) (bs : List UInt8) : Mem b :=
  fun x => bs[(x - a).toNat]?.getD (m x)

/-- Read through a pointer. -/
def deref (a : b.Word) (f : Mem b → α) : M b ω α := fun s =>
  if a = 0 then .error .nullPointer else .ok (f s.mem, s)

/-- Write through a pointer, at an offset. -/
def assign (a : b.Word) (off : ℕ) (bs : List UInt8) : M b ω Unit := fun s =>
  if a = 0 then .error .nullPointer
  else .ok ((), { s with mem := store s.mem (a + BitVec.ofNat _ off) bs })

/-- `fd_err = e` -/
def setFdErr (lib : Lib b ω σ) (e : FdErr) : M b ω Unit := fun s =>
  .ok ((), { s with toProc := lib.setFdErr e s.toProc })

def afPicoInet : I32 := 1018
def afPicoInet6 : I32 := 1019
def sockStream : I32 := 1
def sockDgram : I32 := 2
def picoProtoIpv4 : BitVec 16 := 0
def picoProtoIpv6 : BitVec 16 := 41
def picoProtoTcp : BitVec 16 := 6
def picoProtoUdp : BitVec 16 := 17
def afInet : BitVec 16 := 2
def afInet6 : BitVec 16 := 10
/-- `sizeof(struct sockaddr_in)`; the port is at offset 2, the address at 4 -/
def sizeofSockaddrIn : I32 := 16
/-- `sizeof(struct sockaddr_in6)`; the port is at offset 2, the address at 8 -/
def sizeofSockaddrIn6 : I32 := 28

/-- `sin6_addr`, at offset 8. -/
def in6Addr (a : b.Word) (m : Mem b) : List UInt8 :=
  (List.range 16).map fun i => m (a + BitVec.ofNat _ (8 + i))

/-! `socket.c` -/

/-- `read()`: the library's descriptor, or the system call. -/
def read (lib : Lib b ω σ) (fd : I32) (buf len : b.Word) : M b ω b.Word := do
  if (← call (lib.getSocketFromFd fd)).isSome then
    return ofInt (← call (lib.fdPicoSocketRead fd buf (len.setWidth 32)))
  call (lib.syscall (.of (.direct .read [ofInt fd, buf, len])))

/-- `write()` -/
def write (lib : Lib b ω σ) (fd : I32) (buf count : b.Word) : M b ω b.Word := do
  if (← call (lib.getSocketFromFd fd)).isSome then
    return ofInt (← call (lib.fdPicoSocketWrite fd buf (count.setWidth 32)))
  call (lib.syscall (.of (.direct .write [ofInt fd, buf, count])))

/-- `listen()`, by `socketcall` where the machine has no call of its own. -/
def listen (lib : Lib b ω σ) (fd backlog : I32) : M b ω I32 := do
  if (← call (lib.getSocketFromFd fd)).isSome then
    return (← call (lib.fdPicoSocketListen fd backlog))
  if b.socketcall .listen then
    return (← call (lib.syscall (.of (.socketcall .listen (.word (ofInt fd)))))).setWidth 32
  return (← call (lib.syscall (.of (.direct .listen [ofInt fd, ofInt backlog])))).setWidth 32

/-- `close()` -/
def close (lib : Lib b ω σ) (fd : I32) : M b ω I32 := do
  if (← call (lib.getSocketFromFd fd)).isSome then
    return (← call (lib.fdPicoSocketClose fd))
  return (← call (lib.syscall (.of (.direct .close [ofInt fd])))).setWidth 32

/-- `nrSocket`: the build has `__NR_socket`. -/
def socket (lib : Lib b ω σ) (nrSocket : Bool) (domain type protocol : I32) : M b ω I32 := do
  if domain = afPicoInet then
    if type = sockStream then
      return (← call (lib.fdPicoSocketOpen picoProtoIpv4 picoProtoTcp))
    else if type = sockDgram then
      return (← call (lib.fdPicoSocketOpen picoProtoIpv4 picoProtoUdp))
    else return -1
  if domain = afPicoInet6 then
    if type = sockStream then
      return (← call (lib.fdPicoSocketOpen picoProtoIpv6 picoProtoTcp))
    else if type = sockDgram then
      return (← call (lib.fdPicoSocketOpen picoProtoIpv6 picoProtoUdp))
    else return -1
  let args := [ofInt domain, ofInt type, ofInt protocol]
  return (← call (lib.syscall (if nrSocket then .socket args
    else .socketcallSocket args))).setWidth 32

/-- `bind()`; the address goes down as a text. -/
def bind (lib : Lib b ω σ) (fd : I32) (addr : b.Word) (addrlen : I32) : M b ω I32 := do
  if (← call (lib.getSocketFromFd fd)).isNone then
    return (← call (lib.syscall (.of (trap .bind [ofInt fd, addr, ofUint addrlen])))).setWidth 32
  if addrlen = sizeofSockaddrIn then
    let sinAddr ← deref addr fun m => load32 m (addr + 4)
    match ← call (lib.inetNtoa sinAddr) with
    | none =>
      setFdErr lib .invalidAddress
      return -1
    | some addrString =>
      let sinPort ← deref addr fun m => load16 m (addr + 2)
      return (← call (lib.fdPicoSocketBind fd addrString sinPort))
  else if addrlen = sizeofSockaddrIn6 then
    let sin6Addr ← deref addr (in6Addr addr)
    let addrString ← call (lib.inetNtop sin6Addr addrlen)
    let sin6Port ← deref addr fun m => load16 m (addr + 2)
    return (← call (lib.fdPicoSocketBind fd addrString sin6Port))
  else return -1

/-- `connect()`; the address goes down as a text. -/
def connect (lib : Lib b ω σ) (fd : I32) (addr : b.Word) (addrlen : I32) : M b ω I32 := do
  if (← call (lib.getSocketFromFd fd)).isNone then
    return (← call (lib.syscall (.of (trap .connect [ofInt fd, addr, ofUint addrlen])))).setWidth 32
  if addrlen = sizeofSockaddrIn then
    let sinAddr ← deref addr fun m => load32 m (addr + 4)
    match ← call (lib.inetNtoa sinAddr) with
    | none =>
      setFdErr lib .invalidAddress
      return -1
    | some addrString =>
      let sinPort ← deref addr fun m => load16 m (addr + 2)
      return (← call (lib.fdPicoSocketConnect fd addrString sinPort))
  else if addrlen = sizeofSockaddrIn6 then
    let sin6Addr ← deref addr (in6Addr addr)
    let addrString ← call (lib.inetNtop sin6Addr addrlen)
    let sin6Port ← deref addr fun m => load16 m (addr + 2)
    return (← call (lib.fdPicoSocketConnect fd addrString sin6Port))
  else return -1

/-- `accept()`; the address comes back as a text, the port through `p_port`. -/
def accept (lib : Lib b ω σ) (fd : I32) (addr addrlen : b.Word) : M b ω I32 := do
  if (← call (lib.getSocketFromFd fd)).isNone then
    return (← call (lib.syscall (.of (trap .accept [ofInt fd, addr, addrlen])))).setWidth 32
  let pPort ← call (lib.malloc 4)
  let (retFd, strAddr) ← call (lib.fdPicoSocketAccept fd pPort)
  match ← call (lib.getFdElemFromFd retFd) with
  | none =>
    assign addrlen 0 (bytes32 0)
    return -1
  | some l =>
    if l.isIpv6 = 0 then
      assign addr 0 (bytes16 afInet)
      let port ← deref pPort fun m => load32 m pPort
      assign addr 2 (bytes16 (port.setWidth 16))
      assign addr 4 (bytes32 (lib.inetAddr strAddr))
      assign addrlen 0 (bytes32 sizeofSockaddrIn)
      return retFd
    else
      assign addr 0 (bytes16 afInet6)
      let port ← deref pPort fun m => load32 m pPort
      assign addr 2 (bytes16 (port.setWidth 16))
      match lib.inetPton strAddr with
      | some sin6Addr => assign addr 8 sin6Addr
      | none => pure ()
      assign addrlen 0 (bytes32 sizeofSockaddrIn6)
      return retFd

/-! `fede_socket.c` -/

/-- `pico_read()` -/
def picoRead (lib : Lib b ω σ) (fd : I32) (buf len : b.Word) : M b ω b.Word := do
  if (← call (lib.getSocketFromFd fd)).isSome then
    return ofInt (← call (lib.fdPicoSocketRead fd buf (len.setWidth 32)))
  call (lib.syscall (.of (.direct .read [ofInt fd, buf, len])))

/-- `pico_write()` -/
def picoWrite (lib : Lib b ω σ) (fd : I32) (buf count : b.Word) : M b ω b.Word := do
  if (← call (lib.getSocketFromFd fd)).isSome then
    return ofInt (← call (lib.fdPicoSocketWrite fd buf (count.setWidth 32)))
  call (lib.syscall (.of (.direct .write [ofInt fd, buf, count])))

/-- `pico_listen()` -/
def picoListen (lib : Lib b ω σ) (fd backlog : I32) : M b ω I32 := do
  if (← call (lib.getSocketFromFd fd)).isSome then
    return (← call (lib.fdPicoSocketListen fd backlog))
  if b.socketcall .listen then
    return (← call (lib.syscall (.of (.socketcall .listen (.word (ofInt fd)))))).setWidth 32
  return (← call (lib.syscall (.of (.direct .listen [ofInt fd, ofInt backlog])))).setWidth 32

/-- `pico_close()` -/
def picoClose (lib : Lib b ω σ) (fd : I32) : M b ω I32 := do
  if (← call (lib.getSocketFromFd fd)).isSome then
    return (← call (lib.fdPicoSocketClose fd))
  return (← call (lib.syscall (.of (.direct .close [ofInt fd])))).setWidth 32

/-- `pico_socket()` -/
def picoSocket (lib : Lib b ω σ) (nrSocket : Bool) (domain type protocol : I32) : M b ω I32 := do
  if domain = afPicoInet then
    if type = sockStream then
      return (← call (lib.fdPicoSocketOpen picoProtoIpv4 picoProtoTcp))
    else if type = sockDgram then
      return (← call (lib.fdPicoSocketOpen picoProtoIpv4 picoProtoUdp))
    else return -1
  if domain = afPicoInet6 then
    if type = sockStream then
      return (← call (lib.fdPicoSocketOpen picoProtoIpv6 picoProtoTcp))
    else if type = sockDgram then
      return (← call (lib.fdPicoSocketOpen picoProtoIpv6 picoProtoUdp))
    else return -1
  let args := [ofInt domain, ofInt type, ofInt protocol]
  return (← call (lib.syscall (if nrSocket then .socket args
    else .socketcallSocket args))).setWidth 32

/-- `pico_bind()` -/
def picoBind (lib : Lib b ω σ) (fd : I32) (addr : b.Word) (addrlen : I32) : M b ω I32 := do
  if (← call (lib.getSocketFromFd fd)).isNone then
    return (← call (lib.syscall (.of (trap .bind [ofInt fd, addr, ofUint addrlen])))).setWidth 32
  if addrlen = sizeofSockaddrIn then
    let sinAddr ← deref addr fun m => load32 m (addr + 4)
    match ← call (lib.inetNtoa sinAddr) with
    | none =>
      setFdErr lib .invalidAddress
      return -1
    | some addrString =>
      let sinPort ← deref addr fun m => load16 m (addr + 2)
      return (← call (lib.fdPicoSocketBind fd addrString sinPort))
  else if addrlen = sizeofSockaddrIn6 then
    let sin6Addr ← deref addr (in6Addr addr)
    let addrString ← call (lib.inetNtop sin6Addr addrlen)
    let sin6Port ← deref addr fun m => load16 m (addr + 2)
    return (← call (lib.fdPicoSocketBind fd addrString sin6Port))
  else return -1

/-- `pico_connect()` -/
def picoConnect (lib : Lib b ω σ) (fd : I32) (addr : b.Word) (addrlen : I32) : M b ω I32 := do
  if (← call (lib.getSocketFromFd fd)).isNone then
    return (← call (lib.syscall (.of (trap .connect [ofInt fd, addr, ofUint addrlen])))).setWidth 32
  if addrlen = sizeofSockaddrIn then
    let sinAddr ← deref addr fun m => load32 m (addr + 4)
    match ← call (lib.inetNtoa sinAddr) with
    | none =>
      setFdErr lib .invalidAddress
      return -1
    | some addrString =>
      let sinPort ← deref addr fun m => load16 m (addr + 2)
      return (← call (lib.fdPicoSocketConnect fd addrString sinPort))
  else if addrlen = sizeofSockaddrIn6 then
    let sin6Addr ← deref addr (in6Addr addr)
    let addrString ← call (lib.inetNtop sin6Addr addrlen)
    let sin6Port ← deref addr fun m => load16 m (addr + 2)
    return (← call (lib.fdPicoSocketConnect fd addrString sin6Port))
  else return -1

/-- The IPv4 branch does not write `*addrlen`: the statement is commented out. -/
def picoAccept (lib : Lib b ω σ) (fd : I32) (addr addrlen : b.Word) : M b ω I32 := do
  if (← call (lib.getSocketFromFd fd)).isNone then
    return (← call (lib.syscall (.of (trap .accept [ofInt fd, addr, addrlen])))).setWidth 32
  let pPort ← call (lib.malloc 4)
  let (retFd, strAddr) ← call (lib.fdPicoSocketAccept fd pPort)
  printf ("--- Accept returned : " ++ toString retFd.toInt ++ " ---\n")
  let l ← call (lib.getFdElemFromFd retFd)
  printf "--- GOT ---\n"
  match l with
  | none =>
    assign addrlen 0 (bytes32 0)
    printf "--- Accept is going to be NULL ---\n"
    return -1
  | some l =>
    if l.isIpv6 = 0 then
      printf "--- IF BRANCH ---\n"
      if addr = 0 then printf "--- s is NULL ---\n"
      printf "--- sockaddr ---\n"
      assign addr 0 (bytes16 afInet)
      printf "--- af_inet ---\n"
      let port ← deref pPort fun m => load32 m pPort
      assign addr 2 (bytes16 (port.setWidth 16))
      printf "--- sin_port ---\n"
      assign addr 4 (bytes32 (lib.inetAddr strAddr))
      printf "--- s_addr ---\n"
      printf "--- sizeof 16 ---\n"
      printf ("--- Accept will return : " ++ toString retFd.toInt ++ " ---\n")
      return retFd
    else
      assign addr 0 (bytes16 afInet6)
      let port ← deref pPort fun m => load32 m pPort
      assign addr 2 (bytes16 (port.setWidth 16))
      match lib.inetPton strAddr with
      | some sin6Addr => assign addr 8 sin6Addr
      | none => pure ()
      assign addrlen 0 (bytes32 sizeofSockaddrIn6)
      return retFd

/-- A call of one of the eight functions, by its type of result. -/
inductive Call (b : Build) : Type → Type
  | read (fd : I32) (buf len : b.Word) : Call b b.Word
  | write (fd : I32) (buf count : b.Word) : Call b b.Word
  | listen (fd backlog : I32) : Call b I32
  | close (fd : I32) : Call b I32
  | socket (nrSocket : Bool) (domain type protocol : I32) : Call b I32
  | bind (fd : I32) (addr : b.Word) (addrlen : I32) : Call b I32
  | connect (fd : I32) (addr : b.Word) (addrlen : I32) : Call b I32
  | accept (fd : I32) (addr addrlen : b.Word) : Call b I32

/-- The calls as `socket.c` has them. -/
def socketC (lib : Lib b ω σ) : Call b α → M b ω α
  | .read fd buf len => read lib fd buf len
  | .write fd buf count => write lib fd buf count
  | .listen fd backlog => listen lib fd backlog
  | .close fd => close lib fd
  | .socket nrSocket domain type protocol => socket lib nrSocket domain type protocol
  | .bind fd addr addrlen => bind lib fd addr addrlen
  | .connect fd addr addrlen => connect lib fd addr addrlen
  | .accept fd addr addrlen => accept lib fd addr addrlen

/-- The calls as `fede_socket.c` has them. -/
def fedeSocketC (lib : Lib b ω σ) : Call b α → M b ω α
  | .read fd buf len => picoRead lib fd buf len
  | .write fd buf count => picoWrite lib fd buf count
  | .listen fd backlog => picoListen lib fd backlog
  | .close fd => picoClose lib fd
  | .socket nrSocket domain type protocol => picoSocket lib nrSocket domain type protocol
  | .bind fd addr addrlen => picoBind lib fd addr addrlen
  | .connect fd addr addrlen => picoConnect lib fd addr addrlen
  | .accept fd addr addrlen => picoAccept lib fd addr addrlen

/-- The same value, memory and library state, or the same fault. -/
def Agree (r r' : Except Stop (α × State b ω)) : Prop :=
  r.map (fun (a, s) => (a, s.toProc)) = r'.map fun (a, s) => (a, s.toProc)

/-- The memory once an IPv4 peer address has been stored. -/
def storeSockaddrIn (m : Mem b) (addr pPort : b.Word) (sAddr : BitVec 32) : Mem b :=
  let m := store m (addr + BitVec.ofNat _ 0) (bytes16 afInet)
  let m := store m (addr + BitVec.ofNat _ 2) (bytes16 ((load32 m pPort).setWidth 16))
  store m (addr + BitVec.ofNat _ 4) (bytes32 sAddr)

/-- The memory in which an `accept` of an IPv4 connection finds `*addrlen` at its end. -/
def ipv4Result (lib : Lib b ω σ) (fd : I32) (addr : b.Word) (p : Proc b ω) : Option (Mem b) :=
  match lib.getSocketFromFd fd p with
  | .ok (some _, p) =>
    match lib.malloc 4 p with
    | .ok (pPort, p) =>
      match lib.fdPicoSocketAccept fd pPort p with
      | .ok ((retFd, strAddr), p) =>
        match lib.getFdElemFromFd retFd p with
        | .ok (some l, p) =>
          if l.isIpv6 = 0 ∧ addr ≠ 0 ∧ pPort ≠ 0 then
            some (storeSockaddrIn p.mem addr pPort (lib.inetAddr strAddr))
          else none
        | _ => none
      | _ => none
    | _ => none
  | _ => none

/-- An `accept` of an IPv4 connection whose `*addrlen` is not the length already. -/
def LengthLost (lib : Lib b ω σ) (p : Proc b ω) : Call b α → Prop
  | .accept fd addr addrlen => ∃ m, ipv4Result lib fd addr p = some m ∧
    ¬ (addrlen ≠ 0 ∧ load32 m addrlen = sizeofSockaddrIn)
  | _ => False

theorem Agree.refl (r : Except Stop (α × State b ω)) : Agree r r := rfl

@[simp] theorem bind_run (x : M b ω α) (f : α → M b ω β) (s : State b ω) :
    (x >>= f) s = match x s with
      | .ok (a, t) => f a t
      | .error e => .error e := by
  simp only [Bind.bind, StateT.bind, Except.bind]
  cases x s <;> rfl

@[simp] theorem pure_run (a : α) (s : State b ω) : (pure a : M b ω α) s = .ok (a, s) := rfl

@[simp] theorem printf_run (text : String) (s : State b ω) :
    printf text s = .ok ((), { s with stdout := s.stdout ++ [text] }) := rfl

theorem call_ok {f : Fn b ω α} {p q : Proc b ω} {a : α} (h : f p = .ok (a, q)) (out : List String) :
    call f ⟨p, out⟩ = .ok (a, ⟨q, out⟩) := by
  rw [call, h]
  rfl

theorem call_error {f : Fn b ω α} {p : Proc b ω} {e : Stop} (h : f p = .error e)
    (out : List String) : call f ⟨p, out⟩ = .error e := by
  rw [call, h]
  rfl

/-- The two agree from states that differ in their output only. -/
def Silent (x y : M b ω α) : Prop := ∀ s t : State b ω, s.toProc = t.toProc → Agree (x s) (y t)

namespace Silent

theorem bind {x y : M b ω α} {f g : α → M b ω β} (h : Silent x y) (hk : ∀ a, Silent (f a) (g a)) :
    Silent (x >>= f) (y >>= g) := by
  intro s t hst
  have hxy := h s t hst
  rw [bind_run, bind_run]
  rcases hx : x s with e | ⟨a, u⟩ <;> rcases hy : y t with e' | ⟨a', u'⟩ <;>
    rw [hx, hy] at hxy <;> simp only [Agree, Except.map, reduceCtorEq, Except.error.injEq,
      Except.ok.injEq, Prod.mk.injEq] at hxy
  · rw [hxy]
    exact .refl _
  · obtain ⟨rfl, hu⟩ := hxy
    exact hk a u u' hu

theorem printf_right {x y : M b ω α} (h : Silent x y) (text : String) :
    Silent x (do printf text; y) := by
  intro s t hst
  rw [bind_run, printf_run]
  exact h s _ hst

theorem pure (a : α) : Silent (Pure.pure a : M b ω α) (Pure.pure a) := by
  intro s t hst
  simp only [pure_run, Agree, Except.map, hst]

theorem deref (a : b.Word) (f : Mem b → α) : Silent (FrontEnds.deref a f : M b ω α) (FrontEnds.deref a f) := by
  intro s t hst
  rw [FrontEnds.deref, FrontEnds.deref]
  split
  · rfl
  · simp only [Agree, Except.map, hst]

theorem assign (a : b.Word) (off : ℕ) (bs : List UInt8) :
    Silent (FrontEnds.assign a off bs : M b ω Unit) (FrontEnds.assign a off bs) := by
  intro s t hst
  rw [FrontEnds.assign, FrontEnds.assign]
  split
  · rfl
  · simp only [Agree, Except.map, hst]

end Silent

/-- Storing the address of an IPv6 peer. -/
def storeSockaddrIn6 (lib : Lib b ω σ) (addr addrlen pPort : b.Word) (retFd : I32)
    (strAddr : String) : M b ω I32 := do
  assign addr 0 (bytes16 afInet6)
  let port ← deref pPort fun m => load32 m pPort
  assign addr 2 (bytes16 (port.setWidth 16))
  match lib.inetPton strAddr with
  | some sin6Addr => assign addr 8 sin6Addr
  | none => pure ()
  assign addrlen 0 (bytes32 sizeofSockaddrIn6)
  return retFd

theorem silent_storeSockaddrIn6 (lib : Lib b ω σ) (addr addrlen pPort : b.Word) (retFd : I32)
    (strAddr : String) : Silent (storeSockaddrIn6 lib addr addrlen pPort retFd strAddr)
      (storeSockaddrIn6 lib addr addrlen pPort retFd strAddr) := by
  have hlast : Silent (do assign addrlen 0 (bytes32 sizeofSockaddrIn6); return retFd : M b ω I32)
      (do assign addrlen 0 (bytes32 sizeofSockaddrIn6); return retFd) :=
    Silent.bind (Silent.assign _ _ _) fun _ => Silent.pure _
  refine Silent.bind (Silent.assign _ _ _) fun _ => Silent.bind (Silent.deref _ _) fun _ =>
    Silent.bind (Silent.assign _ _ _) fun _ => ?_
  cases lib.inetPton strAddr with
  | none => exact hlast
  | some sin6Addr => exact Silent.bind (Silent.assign _ _ _) fun _ => hlast

theorem store_at (m : Mem b) (a : b.Word) (bs : List UInt8) {i : ℕ} (hi : i < 4) :
    store m a bs (a + BitVec.ofNat _ i) = bs[i]?.getD (m (a + BitVec.ofNat _ i)) := by
  have hlt : i < 2 ^ b.long := by
    have := Nat.pow_le_pow_right (n := 2) (by decide) b.int_le
    omega
  rw [store, BitVec.add_comm, BitVec.add_sub_cancel, BitVec.toNat_ofNat, Nat.mod_eq_of_lt hlt]

theorem append_bytes (v : BitVec 32) : v.extractLsb' 24 8 ++ v.extractLsb' 16 8 ++
    v.extractLsb' 8 8 ++ v.extractLsb' 0 8 = v := by
  ext i hi
  simp only [BitVec.getElem_append, BitVec.getElem_extractLsb']
  grind

theorem bytes_append (b₃ b₂ b₁ b₀ : UInt8) :
    bytes32 (b₃.toBitVec ++ b₂.toBitVec ++ b₁.toBitVec ++ b₀.toBitVec) = [b₀, b₁, b₂, b₃] := by
  simp only [bytes32, List.cons.injEq, ← UInt8.toBitVec_inj, and_true]
  refine ⟨?_, ?_, ?_, ?_⟩ <;> ext i hi <;>
    simp only [BitVec.getElem_extractLsb', BitVec.getLsbD_append] <;> grind

theorem load32_store (m : Mem b) (a : b.Word) (v : BitVec 32) :
    load32 (store m a (bytes32 v)) a = v := by
  have h0 := store_at m a (bytes32 v) (i := 0) (by omega)
  rw [BitVec.add_zero] at h0
  have h1 : store m a (bytes32 v) (a + 1) = _ := store_at m a (bytes32 v) (i := 1) (by omega)
  have h2 : store m a (bytes32 v) (a + 2) = _ := store_at m a (bytes32 v) (i := 2) (by omega)
  have h3 : store m a (bytes32 v) (a + 3) = _ := store_at m a (bytes32 v) (i := 3) (by omega)
  rw [load32, h0, h1, h2, h3]
  exact append_bytes v

/-- Writing a value that is there already changes nothing. -/
theorem store_load32 (m : Mem b) (a : b.Word) : store m a (bytes32 (load32 m a)) = m := by
  funext x
  have hx : a + BitVec.ofNat _ (x - a).toNat = x := by
    rw [BitVec.ofNat_toNat, BitVec.setWidth_eq, BitVec.add_comm, BitVec.sub_add_cancel]
  rw [store, load32, bytes_append]
  generalize (x - a).toNat = i at hx
  rcases i with _ | _ | _ | _ | i
  · rw [BitVec.add_zero] at hx
    rw [← hx]
    rfl
  · rw [← hx]
    rfl
  · rw [← hx]
    rfl
  · rw [← hx]
    rfl
  · rfl

theorem store_eq_iff (m : Mem b) (a : b.Word) (v : BitVec 32) :
    m = store m a (bytes32 v) ↔ load32 m a = v := by
  constructor
  · intro h
    rw [h, load32_store]
  · rintro rfl
    rw [store_load32]

/-- The two branches of an IPv4 connection: one more assignment on the left, to `*addrlen`. -/
theorem ipv4_agree (addr addrlen pPort : b.Word) (retFd : I32) (sAddr : BitVec 32)
    (text : String) (p : Proc b ω) (out out' : List String) :
    Agree
      ((do
        assign addr 0 (bytes16 afInet)
        let port ← deref pPort fun m => load32 m pPort
        assign addr 2 (bytes16 (port.setWidth 16))
        assign addr 4 (bytes32 sAddr)
        assign addrlen 0 (bytes32 sizeofSockaddrIn)
        return retFd) ⟨p, out⟩)
      ((do
        if addr = 0 then printf "--- s is NULL ---\n"
        printf "--- sockaddr ---\n"
        assign addr 0 (bytes16 afInet)
        printf "--- af_inet ---\n"
        let port ← deref pPort fun m => load32 m pPort
        assign addr 2 (bytes16 (port.setWidth 16))
        printf "--- sin_port ---\n"
        assign addr 4 (bytes32 sAddr)
        printf "--- s_addr ---\n"
        printf "--- sizeof 16 ---\n"
        printf text
        return retFd) ⟨p, out'⟩) ↔
      (addr ≠ 0 ∧ pPort ≠ 0 → addrlen ≠ 0 ∧
        load32 (storeSockaddrIn p.mem addr pPort sAddr) addrlen = sizeofSockaddrIn) := by
  rcases eq_or_ne addr 0 with rfl | haddr
  · refine iff_of_true ?_ (by simp)
    simp only [bind_run, assign, if_true, printf_run]
    exact .refl _
  rcases eq_or_ne pPort 0 with rfl | hport
  · refine iff_of_true ?_ (by simp)
    simp only [bind_run, assign, deref, if_neg haddr, if_true, printf_run]
    exact .refl _
  simp only [bind_run, assign, deref, if_neg haddr, if_neg hport, printf_run, pure_run]
  rw [imp_iff_right ⟨haddr, hport⟩]
  rcases eq_or_ne addrlen 0 with rfl | hlen
  · simp [Agree, Except.map]
  · rw [if_neg hlen, and_iff_right hlen, ← store_eq_iff, eq_comm]
    simp [Agree, Except.map, storeSockaddrIn]

theorem accept_agree (lib : Lib b ω σ) (fd : I32) (addr addrlen : b.Word) (s : State b ω) :
    Agree (accept lib fd addr addrlen s) (picoAccept lib fd addr addrlen s) ↔
      ¬ LengthLost lib s.toProc (.accept fd addr addrlen) := by
  obtain ⟨p, out⟩ := s
  rw [LengthLost, ipv4Result, accept, picoAccept, bind_run, bind_run]
  rcases hsock : lib.getSocketFromFd fd p with e | ⟨_ | sock, p₁⟩
  · rw [call_error hsock]
    exact iff_of_true (.refl _) (by simp)
  · rw [call_ok hsock]
    exact iff_of_true (.refl _) (by simp)
  rw [call_ok hsock]
  simp only [Option.isNone_some, Bool.false_eq_true, if_false, bind_run]
  rcases hmalloc : lib.malloc 4 p₁ with e | ⟨pPort, p₂⟩
  · rw [call_error hmalloc]
    exact iff_of_true (.refl _) (by simp)
  rw [call_ok hmalloc]
  simp only
  rcases hacc : lib.fdPicoSocketAccept fd pPort p₂ with e | ⟨⟨retFd, strAddr⟩, p₃⟩
  · rw [call_error hacc]
    exact iff_of_true (.refl _) (by simp)
  rw [call_ok hacc]
  simp only [printf_run]
  rcases hget : lib.getFdElemFromFd retFd p₃ with e | ⟨_ | l, p₄⟩
  · rw [call_error hget, call_error hget]
    exact iff_of_true (.refl _) (by simp)
  · rw [call_ok hget, call_ok hget]
    refine iff_of_true ?_ (by simp)
    exact Silent.bind (Silent.assign _ _ _) (fun _ => Silent.printf_right (Silent.pure _) _) _ _ rfl
  rw [call_ok hget, call_ok hget]
  simp only
  by_cases hv : l.isIpv6 = 0
  · simp only [if_pos hv]
    refine (ipv4_agree addr addrlen pPort retFd (lib.inetAddr strAddr) _ p₄ _ _).trans ?_
    simp only [hv, true_and]
    split_ifs with hnull
    · rw [imp_iff_right hnull]
      simp
    · exact iff_of_true (fun h => absurd h hnull) (by simp)
  · simp only [if_neg hv]
    refine iff_of_true ?_ (by simp [hv])
    exact silent_storeSockaddrIn6 lib addr addrlen pPort retFd strAddr _ _ rfl

/-- The copies do what the originals do, the `accept` of an IPv4 connection apart: there
    `pico_accept` leaves `*addrlen` alone. -/
theorem fedeSocket_agrees (lib : Lib b ω σ) (c : Call b α) (s : State b ω) :
    Agree (socketC lib c s) (fedeSocketC lib c s) ↔ ¬ LengthLost lib s.toProc c := by
  cases c with
  | accept fd addr addrlen => exact accept_agree lib fd addr addrlen s
  | _ => exact iff_of_true (.refl _) not_false

/-- A library that hands over the IPv4 connection of descriptor 4 to every `accept`. -/
def handsOver4 : Lib Interpose.direct64 Unit ℕ where
  getSocketFromFd _ p := .ok (some 0, p)
  getFdElemFromFd _ p := .ok (some ⟨(4, 5), 0, 0, 0, 0, 0, 0⟩, p)
  fdPicoSocketOpen _ _ p := .ok (3, p)
  fdPicoSocketBind _ _ _ p := .ok (0, p)
  fdPicoSocketListen _ _ p := .ok (0, p)
  fdPicoSocketConnect _ _ _ p := .ok (0, p)
  fdPicoSocketAccept _ pPort p :=
    .ok ((4, "10.0.0.2"), { p with mem := store p.mem pPort (bytes32 5000) })
  fdPicoSocketWrite _ _ _ p := .ok (0, p)
  fdPicoSocketRead _ _ _ p := .ok (0, p)
  fdPicoSocketClose _ p := .ok (0, p)
  syscall _ p := .ok (0, p)
  malloc _ p := .ok (64, p)
  inetNtoa _ p := .ok (some "10.0.0.1", p)
  inetNtop _ _ p := .ok ("::1", p)
  inetAddr _ := 0x0200000a
  inetPton _ := some (List.replicate 16 0)
  setFdErr _ p := p

/-- `accept(3, (struct sockaddr *) 128, (socklen_t *) 256)` with a zero at 256. -/
theorem accept_length_lost : ¬ ∀ (c : Call Interpose.direct64 I32)
    (s : State Interpose.direct64 Unit), Agree (socketC handsOver4 c s) (fedeSocketC handsOver4 c s) := by
  intro h
  let s : State Interpose.direct64 Unit := ⟨⟨(), fun _ => 0⟩, []⟩
  have hlost : LengthLost handsOver4 s.toProc (.accept 3 128 256) := ⟨_, rfl, by decide⟩
  exact (accept_agree handsOver4 3 128 256 s).mp (h (.accept 3 128 256) s) hlost

end FdPicotcp.FrontEnds
