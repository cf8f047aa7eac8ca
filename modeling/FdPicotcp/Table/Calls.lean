import FdPicotcp.Address.Family
import FdPicotcp.Lib.Program
import FdPicotcp.Table.FrontEnds
import FdPicotcp.Wrapper.Elem

/-! The calls of the library as programs over the globals.

    A program runs from the front end in `socket.c` to where the call returns, and its actions are
    what the call does to the globals: reads and assignments of `fd_err`, of `fd_table` and its size,
    and the two semaphores. What the stack, libc and the kernel answer comes with the call. An exit
    tells how the call returns, so that the exits that record their failure differ from those that
    do not. -/

namespace FdPicotcp.Status
open Transition Program CInt FdTable AddressText
open Ownership (Binding)
open Elem (Sem)
open Family (Net Masks addrString setIsIpv6)
open FrontEnds (afPicoInet afPicoInet6 sockStream sockDgram)
open Interpose (I32)

/-- What a call does to the globals; `lookup` is a read of `fd_table[fd]`, `stop` what does not come
    back: a fault, or a recursion without an end. -/
inductive Action where
  | setErr (e : FdErr)
  | lookup (fd : ℤ)
  | launch
  | init (rlimCur : ℕ)
  | sizes
  | grow (ok : Bool)
  | setSlot (fd : ℤ) (l : Option (FdElem ℕ))
  | setIsIpv6 (fd v : ℤ)
  | waitonSem (c : Sem) (fd : ℤ)
  | unlockSem (c : Sem) (fd : ℤ)
  | stop

/-- `launch` tells whether the flag was raised before, `sizes` are `FD_TABLE_SIZE` and `MAX_FD`,
    `grow` tells whether there was memory. -/
abbrev Answer : Action → Type
  | .lookup _ => Option (FdElem ℕ)
  | .launch | .grow _ => Bool
  | .sizes => ℤ × ℤ
  | .stop => Empty
  | .setErr _ | .init _ | .setSlot .. | .setIsIpv6 .. | .waitonSem .. | .unlockSem .. => Unit

/-- The exits that return -1 and leave `fd_err` as it is, those of the stack functions apart. -/
inductive Silent where
  /-- a socket type other than `SOCK_STREAM` and `SOCK_DGRAM` -/
  | socketType
  /-- an `addrlen` of neither `sockaddr` -/
  | addrlen
  | semInit
  /-- no memory for the larger table -/
  | newTable
  /-- `accept()` finds no entry for what it has opened -/
  | noEntry
  deriving DecidableEq

/-- How a call returns. -/
inductive Exit where
  /-- the descriptor, or the domain, is not the library's: a system call -/
  | kernel
  | opened (fd : ℤ)
  /-- `fd_err` has been set, and -1 is returned -/
  | recorded (e : FdErr)
  | silent (why : Silent)
  /-- what the stack function returned -/
  | answer (ret : ℤ)
  deriving DecidableEq

/-- What the caller sees; the kernel's own answer is left out. -/
def Exit.value : Exit → Option ℤ
  | .kernel => none
  | .opened fd => some fd
  | .recorded _ | .silent _ => some (-1)
  | .answer ret => some ret

/-- A piece of a call. -/
abbrev Op (α : Type) := Prog Action Answer α

/-- A call, up to how it returns. -/
abbrev Call := Op Exit

def setErr (e : FdErr) : Op Unit := perform (Action.setErr e)
def lookup (fd : ℤ) : Op (Option (FdElem ℕ)) := perform (Action.lookup fd)
def launch : Op Bool := perform Action.launch
def initTable (rlimCur : ℕ) : Op Unit := perform (Action.init rlimCur)
def sizes : Op (ℤ × ℤ) := perform Action.sizes
def grow (ok : Bool) : Op Bool := perform (Action.grow ok)
def storeSlot (fd : ℤ) (l : Option (FdElem ℕ)) : Op Unit := perform (Action.setSlot fd l)
def storeIsIpv6 (fd v : ℤ) : Op Unit := perform (Action.setIsIpv6 fd v)
def waitonSem (c : Sem) (fd : ℤ) : Op Unit := perform (Action.waitonSem c fd)
def unlockSem (c : Sem) (fd : ℤ) : Op Unit := perform (Action.unlockSem c fd)
/-- The call does not come back. -/
def stop : Call := .act Action.stop nofun

/-- `fd_err = e; return -1;` -/
def fail (e : FdErr) : Call := do
  setErr e
  return .recorded e

/-! `fd_picotcp.c` -/

/-- The end of `fd_elem_create`. -/
def insertElem (l : FdElem ℕ) : Call := do
  match ← lookup l.fd.1 with
  | some _ => fail .tableWriteOnNotNull
  | none =>
    storeSlot l.fd.1 (some l)
    return .opened l.fd.1

/-- The entry is made with both semaphores before the table is looked at, and an error exit frees
    nothing. -/
def fdElemCreate (alloc : Alloc) (fd : ℤ × ℤ) (s : ℕ) : Call := do
  if ¬ alloc.elem then fail .elemNotAllocated
  else if ¬ alloc.acceptSem ∨ ¬ alloc.readSem then fail .semNotAllocated
  else if ¬ alloc.initAccept ∨ ¬ alloc.initRead then return .silent .semInit
  else
    let l : FdElem ℕ := ⟨fd, 0, 0, 0, 0, 0, s⟩
    let (size, maxFd) ← sizes
    if size ≤ fd.1 ∨ size ≤ fd.2 then
      if maxFd < toInt32 (2 * size) then fail .tableMaxSizeReached
      else if ← (grow alloc.table) then insertElem l
      else return .silent .newTable
    else insertElem l

/-- What the first `socket()` and every one meet: `RLIMIT_NOFILE`, whether the device type is known,
    what `pthread_create`, `pico_socket_open` and `pipe()` return, and the allocations. -/
structure OpenEnv where
  rlimCur : ℕ
  device : Bool
  thread : ℕ
  socket : Option ℕ
  pipe : Option (ℤ × ℤ)
  alloc : Alloc

/-- The part of `init` that touches the globals. -/
def init (env : OpenEnv) : Op Unit := do
  initTable env.rlimCur
  if env.device then
    -- `pthread_create` returns no negative numbers, so the error is never set
    if (env.thread : ℤ) = -1 then setErr .threadError

/-! `fd_functions.c` -/

/-- `if (new_fd < 0) return -1;`, and what comes after it. -/
def ifOpened (newFd : Call) (rest : ℤ → Call) : Call := do
  match ← newFd with
  | .opened newFd => rest newFd
  | x => return x

/-- The rest, once the stack is there. -/
def openSocket (net : Net) (env : OpenEnv) : Call :=
  match env.socket, env.pipe with
  | none, _ => fail .socketIsNull
  | some _, none => fail .pipeNotInitialized
  | some s, some fd =>
    ifOpened (fdElemCreate env.alloc fd s) fun newFd => do
      storeIsIpv6 newFd net.isIpv6
      return .opened newFd

/-- The first call starts the stack. -/
def fdPicoSocketOpen (net : Net) (env : OpenEnv) : Call := do
  if ¬ (← launch) then init env
  openSocket net env

/-- The masks, and what the stack answers; `dad` is that the new link is valid in time. -/
structure BindEnv where
  masks : Masks
  linkFind : Bool
  linkAdd : Bool
  dad : Bool
  ret : ℤ

/-- The address by its text, the mask by the family of the address, then the link and the stack. -/
def fdPicoSocketBind (fd : ℤ) (address : List Char) (env : BindEnv) : Call := do
  let some _ ← lookup fd | fail .socketNotFound
  if isIpv4 address then
    if (picoStringToIpv4 address).isNone then fail .invalidAddress
    else if (picoStringToIpv4 env.masks.ipv4).isNone then fail .invalidNetmask
    else if ¬ env.linkFind ∧ ¬ env.linkAdd then fail .interfaceNotLinked
    else return .answer env.ret
  else if isIpv6 address then
    match picoStringToIpv6 address, picoStringToIpv6 env.masks.ipv6 with
    | .error .overrun, _ => stop
    | .error .invalid, _ => fail .invalidAddress
    | .ok _, .error .overrun => stop
    | .ok _, .error .invalid => fail .invalidNetmask
    | .ok _, .ok _ =>
      if ¬ env.linkFind ∧ ¬ env.linkAdd then fail .interfaceNotLinked
      else if ¬ env.dad then fail .interfaceNotLinked
      else return .answer env.ret
  else fail .invalidAddress

/-- Only the lookup is the wrapper's. -/
def fdPicoSocketListen (fd : ℤ) (ret : ℤ) : Call := do
  let some _ ← lookup fd | fail .socketNotFound
  return .answer ret

/-- The entry is looked up before the socket, and `l->isIpv6` is read after both. -/
def fdPicoSocketConnect (fd : ℤ) (address : List Char) (ret : ℤ) : Call := do
  let l ← lookup fd
  let some _ ← lookup fd | fail .socketNotFound
  match l with
  | none => stop
  | some l =>
    if l.isIpv6 = 0 then
      if (picoStringToIpv4 address).isNone then fail .invalidAddress
      else return .answer ret
    else
      match picoStringToIpv6 address with
      | .error .overrun => stop
      | .error .invalid => fail .invalidAddress
      | .ok _ => return .answer ret

/-- `child` is what `pico_socket_accept` returns, `port` that there was memory for the port; the
    result of `pipe()` is not looked at. -/
structure AcceptEnv where
  port : Bool
  child : Option ℕ
  pipe : Option (ℤ × ℤ)
  junk : ℤ × ℤ
  alloc : Alloc

/-- The token is taken first; a NULL `p_port` is written through. -/
def fdPicoSocketAccept (fd : ℤ) (env : AcceptEnv) : Call := do
  let some l ← lookup fd | fail .socketNotFound
  waitonSem .accept fd
  match env.child with
  | none => fail .socketIsNull
  | some c =>
    if ¬ env.port then stop
    else
      ifOpened (fdElemCreate env.alloc (env.pipe.getD env.junk) c) fun newFd => do
        if l.isIpv6 ≠ 0 then storeIsIpv6 newFd 1
        return .opened newFd

/-- Only the lookup is the wrapper's. -/
def fdPicoSocketWrite (fd : ℤ) (ret : ℤ) : Call := do
  let some _ ← lookup fd | fail .socketNotFound
  return .answer ret

/-- The loop that empties the pipe touches neither the table nor `fd_err`. -/
def fdPicoSocketRead (fd len readLen : ℤ) : Call := do
  let some _ ← lookup fd | fail .socketNotFound
  waitonSem .read fd
  if len = readLen then unlockSem .read fd
  return .answer readLen

/-- With `fd_elem_delete`. The interposed `close()` of the pipe's read end, which is `fd` itself,
    starts over and does not come back. -/
def fdPicoSocketClose (inner : Binding) (fd ret : ℤ) : Call := do
  let some _ ← lookup fd | fail .socketNotFound
  let some _ ← lookup fd | return .answer ret
  match inner with
  | .interposed => stop
  | .libc =>
    storeSlot fd none
    return .answer ret

/-! `socket.c` -/

/-- `socket()`: the domain decides whether the library is asked. -/
def socket (domain type : I32) (env : OpenEnv) : Call := do
  if domain = afPicoInet then
    if type = sockStream ∨ type = sockDgram then fdPicoSocketOpen .ipv4 env
    else return .silent .socketType
  else if domain = afPicoInet6 then
    if type = sockStream ∨ type = sockDgram then fdPicoSocketOpen .ipv6 env
    else return .silent .socketType
  else return .kernel

/-- `stale` is what the stack frame holds where `addr_string` will be. -/
def bind (fd : ℤ) (addr : Memory) (addrlen : ℕ) (stale : List Char) (env : BindEnv) : Call := do
  let some _ ← lookup fd | return .kernel
  match addrString addr addrlen stale with
  | none => return .silent .addrlen
  | some address => fdPicoSocketBind fd address env

/-- `listen()` -/
def listen (fd ret : ℤ) : Call := do
  let some _ ← lookup fd | return .kernel
  fdPicoSocketListen fd ret

/-- `connect()`, with the text of the address. -/
def connect (fd : ℤ) (addr : Memory) (addrlen : ℕ) (stale : List Char) (ret : ℤ) : Call := do
  let some _ ← lookup fd | return .kernel
  match addrString addr addrlen stale with
  | none => return .silent .addrlen
  | some address => fdPicoSocketConnect fd address ret

/-- What `fd_pico_socket_accept` returned is looked up, a -1 too. -/
def accept (fd : ℤ) (env : AcceptEnv) : Call := do
  let some _ ← lookup fd | return .kernel
  let x ← fdPicoSocketAccept fd env
  match x, ← lookup (x.value.getD (-1)) with
  | .opened _, none => return .silent .noEntry
  | x, _ => return x

/-- `read()` -/
def read (fd len readLen : ℤ) : Call := do
  let some _ ← lookup fd | return .kernel
  fdPicoSocketRead fd len readLen

/-- `write()` -/
def write (fd ret : ℤ) : Call := do
  let some _ ← lookup fd | return .kernel
  fdPicoSocketWrite fd ret

/-- `close()` -/
def close (inner : Binding) (fd ret : ℤ) : Call := do
  let some _ ← lookup fd | return .kernel
  fdPicoSocketClose inner fd ret

/-- A call with its arguments and what it will be answered. -/
inductive Request where
  | socket (domain type : I32) (env : OpenEnv)
  | bind (fd : ℤ) (addr : Memory) (addrlen : ℕ) (stale : List Char) (env : BindEnv)
  | listen (fd ret : ℤ)
  | connect (fd : ℤ) (addr : Memory) (addrlen : ℕ) (stale : List Char) (ret : ℤ)
  | accept (fd : ℤ) (env : AcceptEnv)
  | read (fd len readLen : ℤ)
  | write (fd ret : ℤ)
  | close (fd ret : ℤ)

/-- The program of a request. -/
def Request.call (inner : Binding) : Request → Call
  | .socket domain type env => Status.socket domain type env
  | .bind fd addr addrlen stale env => Status.bind fd addr addrlen stale env
  | .listen fd ret => Status.listen fd ret
  | .connect fd addr addrlen stale ret => Status.connect fd addr addrlen stale ret
  | .accept fd env => Status.accept fd env
  | .read fd len readLen => Status.read fd len readLen
  | .write fd ret => Status.write fd ret
  | .close fd ret => Status.close inner fd ret

/-! Runs -/

/-- What all calls work on: the globals, and the flag of `fd_pico_socket_open`. -/
structure Shared where
  globals : Globals ℕ
  threadLaunched : Bool

/-- The value of a semaphore. -/
def semOf (c : Sem) (l : FdElem ℕ) : ℕ :=
  match c with
  | .accept => l.acceptSem
  | .read => l.readSem

/-- The entry with another value. -/
def withSem (c : Sem) (v : ℕ) (l : FdElem ℕ) : FdElem ℕ :=
  match c with
  | .accept => { l with acceptSem := v }
  | .read => { l with readSem := v }

/-- `unlock_sem` -/
def unlocked (c : Sem) (l : FdElem ℕ) : FdElem ℕ :=
  if 0 < semOf c l then l else withSem c (semOf c l + 1) l

/-- An assignment to the table, where it is no fault. -/
def stored (g : Shared) (r : Except Fault (Globals ℕ)) : Option (Unit × Shared) :=
  r.toOption.map fun globals => ((), { g with globals })

/-- `growTable`; `false` leaves the table. -/
def handleGrow (g : Shared) (ok : Bool) : Option (Bool × Shared) :=
  match growTable g.globals ok with
  | .ok (some globals) => some (true, { g with globals })
  | .ok none => some (false, g)
  | .error _ => none

/-- `sem_wait` -/
def handleWait (g : Shared) (c : Sem) (fd : ℤ) : Option (Unit × Shared) :=
  match slot g.globals fd with
  | .ok (some l) =>
    if 0 < semOf c l then
      stored g (FdTable.setSlot g.globals fd (some (withSem c (semOf c l - 1) l)))
    else none
  | _ => none

/-- `unlock_sem` on the entry of `fd`. -/
def handleUnlock (g : Shared) (c : Sem) (fd : ℤ) : Option (Unit × Shared) :=
  match slot g.globals fd with
  | .ok (some l) => stored g (FdTable.setSlot g.globals fd (some (unlocked c l)))
  | _ => none

/-- An action of a call; `none` where it waits, or does not come back. -/
def handler (g : Shared) : (a : Action) → Option (Answer a × Shared)
  | .setErr e => some ((), { g with globals := g.globals.fail e })
  | .lookup fd => (slot g.globals fd).toOption.map (·, g)
  | .launch => some (g.threadLaunched, { g with threadLaunched := true })
  | .init rlimCur => some ((), { g with globals := FdTable.init g.globals rlimCur })
  | .sizes => some ((g.globals.fdTableSize, g.globals.maxFd), g)
  | .grow ok => handleGrow g ok
  | .setSlot fd l => stored g (FdTable.setSlot g.globals fd l)
  | .setIsIpv6 fd v => stored g (Family.setIsIpv6 g.globals fd v)
  | .waitonSem c fd => handleWait g c fd
  | .unlockSem c fd => handleUnlock g c fd
  | .stop => none

/-! A call that is left alone -/

section Alone
variable {g : Shared}

@[simp] theorem exec_setErr (e : FdErr) :
    (setErr e).exec handler g = some ((), { g with globals := g.globals.fail e }) := rfl

@[simp] theorem exec_fail (e : FdErr) :
    (fail e).exec handler g = some (.recorded e, { g with globals := g.globals.fail e }) := rfl

@[simp] theorem exec_lookup (fd : ℤ) :
    (lookup fd).exec handler g = (slot g.globals fd).toOption.map (·, g) := exec_perform _

@[simp] theorem exec_sizes :
    sizes.exec handler g = some ((g.globals.fdTableSize, g.globals.maxFd), g) := rfl

@[simp] theorem exec_grow (ok : Bool) : (grow ok).exec handler g = handleGrow g ok := exec_perform _

@[simp] theorem exec_storeSlot (fd : ℤ) (l : Option (FdElem ℕ)) :
    (storeSlot fd l).exec handler g = stored g (FdTable.setSlot g.globals fd l) := exec_perform _

/-- What the program returns, and what it leaves in the globals. -/
def reported (o : Option (Exit × Shared)) : Option (Option ℤ × Globals ℕ) :=
  o.map fun (x, g) => (x.value, g.globals)

@[simp] theorem exec_storeIsIpv6 (fd v : ℤ) :
    (storeIsIpv6 fd v).exec handler g = stored g (Family.setIsIpv6 g.globals fd v) := exec_perform _

@[simp] theorem exec_waitonSem (c : Sem) (fd : ℤ) :
    (waitonSem c fd).exec handler g = handleWait g c fd := exec_perform _

/-- The descriptor is looked up, and is there. -/
theorem exec_lookup_entry {fd : ℤ} {l : FdElem ℕ} {k : Option (FdElem ℕ) → Call}
    (hslot : slot g.globals fd = .ok (some l)) :
    (lookup fd >>= k).exec handler g = (k (some l)).exec handler g := by
  rw [exec_bind, exec_lookup, hslot]
  rfl

end Alone

end FdPicotcp.Status
