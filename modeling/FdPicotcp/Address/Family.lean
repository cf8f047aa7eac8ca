import FdPicotcp.Address.Text
import FdPicotcp.Table.Ownership

/-! Do the addresses handed to the stack match the socket's family?

    `connect()` and `accept()` choose the family by the entry's `isIpv6`, `bind()` by the text that
    libc has made of the `sockaddr`, and nobody looks at `sa_family`. The world adds to the owners of
    the sockets (`Ownership`) the family each socket was opened with, and keeps a record of every
    address object the stack has been given.

    `bind()` of an IPv4 `sockaddr` on an IPv6 socket adds a link and passes a `pico_ip4`. `Agreeing`
    says which steps are free of that; a run of such steps keeps families apart. -/

namespace FdPicotcp.Family
open Transition Socket FdTable AddressText
open Ownership (Binding)

/-- The two families. -/
inductive Net where | ipv4 | ipv6
  deriving DecidableEq

/-- The family whose addresses a socket must not be handed. -/
def Net.other : Net → Net
  | .ipv4 => .ipv6
  | .ipv6 => .ipv4

/-- `AF_INET`, `AF_INET6` -/
def Net.af : Net → ℕ
  | .ipv4 => 2
  | .ipv6 => 10

/-- The flag of an entry. -/
def Net.isIpv6 : Net → ℤ
  | .ipv4 => 0
  | .ipv6 => 1

/-- `struct pico_ip4`, `struct pico_ip6` -/
inductive Address where
  | ip4 (addr : List UInt8)
  | ip6 (addr : List UInt8)
  deriving DecidableEq

/-- The family an object belongs to. -/
def Address.family : Address → Net
  | .ip4 _ => .ipv4
  | .ip6 _ => .ipv6

/-- An address object given to the stack, with the family of the socket in the same call. -/
structure Handed where
  net : Net
  object : Address
  deriving DecidableEq

/-- `net` is the family of the socket last allocated at an address, `clones` are the sockets made
    by `tcp_syn`, `links` what the wrapper has added to the device, `ret` what the last call
    returned. -/
structure World where
  own : Ownership.World
  net : ℕ → Net
  clones : List ℕ
  links : List Address
  handed : List Handed
  ret : ℤ

/-- `ipv4_mask_string`, `ipv6_mask_string` -/
structure Masks where
  ipv4 : List Char
  ipv6 : List Char

/-- What the stack answers during a `bind()`; `dad` is that the new link is valid in time. -/
structure Env where
  linkFind : Bool
  linkAdd : Bool
  dad : Bool
  ok : Bool

/-- A call of the wrapper, or a step of the stack. -/
inductive Act where
  | socket (net : Net) (a : ℕ) (proto : Proto) (pipe : Option (ℤ × ℤ)) (alloc : Alloc)
  /-- `stale` is what the stack frame holds where `addr_string` will be -/
  | bind (fd : ℤ) (addr : Memory) (addrlen : ℕ) (stale : List Char) (env : Env)
  | connect (fd : ℤ) (addr : Memory) (addrlen : ℕ) (stale : List Char) (ok : Bool)
  | accept (fd : ℤ) (a : ℕ) (pipe : ℤ × ℤ) (alloc : Alloc)
  /-- `accept()` past its semaphore, and no connection is there -/
  | acceptNull (fd : ℤ)
  | syn (l a : ℕ)
  | other (act : Ownership.Act)

/-- The calls and steps of the stack that pass no address and open no socket. -/
def plain : Ownership.Act → Bool
  | .listen .. | .close .. | .firstAck .. | .del .. | .gc .. => true
  | _ => false

/-- `fd_err = e; return -1;` -/
def World.fail (w : World) (e : FdErr) : World :=
  { w with own := { w.own with globals := w.own.globals.fail e }, ret := -1 }

/-- `get_fd_elem_from_fd(new_fd)->isIpv6 = v` -/
def setIsIpv6 (g : Globals ℕ) (newFd v : ℤ) : Except Fault (Globals ℕ) := do
  match ← slot g newFd with
  | some l => setSlot g newFd (some { l with isIpv6 := v })
  | none => .ok g

/-- The end of `fd_pico_socket_open` and of `fd_pico_socket_accept`. -/
def register (w : World) (alloc : Alloc) (fd : ℤ × ℤ) (a : ℕ) (v : ℤ) : Option World :=
  match fdElemCreate w.own.globals alloc fd a with
  | .ok (newFd, g) =>
    if newFd < 0 then some { w with own := { w.own with globals := g }, ret := -1 }
    else match setIsIpv6 g newFd v with
      | .ok g => some { w with own := { w.own with globals := g }, ret := newFd }
      | .error _ => none
  | .error _ => none

/-- `pico_socket_bind` and `pico_socket_connect`: the object is read whatever comes of it. -/
def stackCall (w : World) (fd : ℤ) (a : ℕ) (o : Address) (ok : Bool)
    (f : PicoSocket → PicoSocket) : Option World :=
  (Ownership.onSocket w.own fd (if ok then f else id)).map fun own =>
    { w with own, handed := ⟨w.net a, o⟩ :: w.handed, ret := if ok then 0 else -1 }

/-- `pico_ipv4_link_find` and `pico_ipv4_link_add`, and those of IPv6. -/
def link (w : World) (env : Env) (o : Address) : Option World :=
  if env.linkFind then some w
  else if env.linkAdd then some { w with links := o :: w.links }
  else none

/-- The text decides which object is made; the socket is not asked for its family. -/
def fdPicoSocketBind (masks : Masks) (w : World) (fd : ℤ) (a : ℕ) (address : List Char) (env : Env) :
    Option World :=
  if isIpv4 address then
    match picoStringToIpv4 address with
    | none => some (w.fail .invalidAddress)
    | some ip =>
      if (picoStringToIpv4 masks.ipv4).isNone then some (w.fail .invalidNetmask)
      else match link w env (.ip4 ip) with
        | none => some (w.fail .interfaceNotLinked)
        | some w => stackCall w fd a (.ip4 ip) env.ok picoSocketBind
  else if isIpv6 address then
    match picoStringToIpv6 address with
    | .error .overrun => none
    | .error .invalid => some (w.fail .invalidAddress)
    | .ok ip =>
      match picoStringToIpv6 masks.ipv6 with
      | .error .overrun => none
      | .error .invalid => some (w.fail .invalidNetmask)
      | .ok _ =>
        match link w env (.ip6 ip) with
        | none => some (w.fail .interfaceNotLinked)
        | some w =>
          if env.dad then stackCall w fd a (.ip6 ip) env.ok picoSocketBind
          else some (w.fail .interfaceNotLinked)
  else some (w.fail .invalidAddress)

/-- The entry's flag decides how the text is read. -/
def fdPicoSocketConnect (w : World) (fd : ℤ) (l : FdElem ℕ) (address : List Char) (ok : Bool) :
    Option World :=
  if l.isIpv6 = 0 then
    match picoStringToIpv4 address with
    | none => some (w.fail .invalidAddress)
    | some ip => stackCall w fd l.socket (.ip4 ip) ok Ownership.picoSocketConnect
  else
    match picoStringToIpv6 address with
    | .error .overrun => none
    | .error .invalid => some (w.fail .invalidAddress)
    | .ok ip => stackCall w fd l.socket (.ip6 ip) ok Ownership.picoSocketConnect

/-- `addr_string`, as `bind()` and `connect()` make it. `inet_ntop` is told that the buffer has
    `addrlen` bytes, and its failure is not noticed. -/
def addrString (addr : Memory) (addrlen : ℕ) (stale : List Char) : Option (List Char) :=
  if addrlen = 16 then some (inetNtoa fun i => addr (4 + i))
  else if addrlen = 28 then
    some ((inetNtop (fun i => addr (8 + i)) addrlen).getD (cString stale))
  else none

/-- The object that `fd_pico_socket_accept` passes to be filled in. -/
def acceptObject (l : FdElem ℕ) : Address :=
  if l.isIpv6 = 0 then .ip4 (List.replicate 4 0) else .ip6 (List.replicate 16 0)

/-- The stack is given an object along with the socket at `a`. -/
def World.hand (w : World) (a : ℕ) (o : Address) : World :=
  { w with handed := ⟨w.net a, o⟩ :: w.handed }

/-- The socket at `a` is now `s`. -/
def World.put (w : World) (a : ℕ) (s : Ownership.HeapSocket) : World :=
  { w with own := w.own.put a s }

/-- A step of the owners, with the families and the objects handed over. -/
def step (inner : Binding) (masks : Masks) (w : World) : Act → Option World
  | .socket net a proto pipe alloc =>
    if w.own.heap a = none then
      let w := { w.put a { picoSocketOpen proto with parent := none } with
        net := Function.update w.net a net }
      match pipe with
      | none => some (w.fail .pipeNotInitialized)
      | some fd => register w alloc fd a net.isIpv6
    else none
  | .bind fd addr addrlen stale env =>
    match getSocketFromFd w.own.globals fd with
    | .ok (some a) =>
      match addrString addr addrlen stale with
      | some address => fdPicoSocketBind masks w fd a address env
      | none => some { w with ret := -1 }
    | _ => none
  | .connect fd addr addrlen stale ok =>
    match slot w.own.globals fd with
    | .ok (some l) =>
      match addrString addr addrlen stale with
      | some address => fdPicoSocketConnect w fd l address ok
      | none => some { w with ret := -1 }
    | _ => none
  | .accept fd a pipe alloc =>
    match slot w.own.globals fd, w.own.heap a with
    | .ok (some l), some s =>
      if s.parent = some l.socket ∧ s.state = .established then
        register ((w.hand l.socket (acceptObject l)).put a { s with parent := none }) alloc pipe a
          (if l.isIpv6 = 0 then 0 else 1)
      else none
    | _, _ => none
  | .acceptNull fd =>
    match slot w.own.globals fd with
    | .ok (some l) => some ((w.hand l.socket (acceptObject l)).fail .socketIsNull)
    | _ => none
  | .syn l a => (Ownership.step inner w.own (.syn l a)).map fun own =>
    { w with own, net := Function.update w.net a (w.net l), clones := a :: w.clones }
  | .other act =>
    if plain act then (Ownership.step inner w.own act).map fun own => { w with own } else none

/-- After `init`; no socket is there yet. -/
def begin (rlimCur : ℕ) : World := ⟨Ownership.begin rlimCur, fun _ => .ipv4, [], [], [], 0⟩

/-! What a step must meet -/

/-- `sa_family`, in the first two bytes. -/
def saFamily (addr : Memory) : ℕ := (addr 0).toNat + 256 * (addr 1).toNat

/-- The `sockaddr` does not say that it is of the other family. -/
def Agrees (net : Net) (addr : Memory) : Prop := saFamily addr ≠ net.other.af

instance (net : Net) (addr : Memory) : Decidable (Agrees net addr) :=
  inferInstanceAs (Decidable (_ ≠ _))

/-- A `bind()` that picoTCP will read an address for: of the socket's family, by its length and by
    `sa_family`. -/
def BindAgrees (net : Net) (addr : Memory) (addrlen : ℕ) (stale : List Char) : Prop :=
  if addrlen = 16 then net = .ipv4 ∧ Agrees net addr
  else if addrlen = 28 then
    match inetNtop (fun i => addr (8 + i)) 28 with
    | some text => isIpv4 text ∨ (net = .ipv6 ∧ Agrees net addr)
    | none =>
      if isIpv4 (cString stale) then
        picoStringToIpv4 (cString stale) = none ∨ (net = .ipv4 ∧ Agrees net addr)
      else if isIpv6 (cString stale) then
        (picoStringToIpv6 (cString stale)).toOption = none ∨ (net = .ipv6 ∧ Agrees net addr)
      else True
  else True

/-- A `connect()` refuses the text of the other family by itself. -/
def ConnectAgrees (net : Net) (addr : Memory) (addrlen : ℕ) (stale : List Char) : Prop :=
  if addrlen = 16 then net = .ipv4 → Agrees net addr
  else if addrlen = 28 then
    match inetNtop (fun i => addr (8 + i)) 28 with
    | some _ => net = .ipv6 → Agrees net addr
    | none =>
      match net with
      | .ipv4 => picoStringToIpv4 (cString stale) = none ∨ Agrees net addr
      | .ipv6 => (picoStringToIpv6 (cString stale)).toOption = none ∨ Agrees net addr
  else True

/-- Nothing of the other family still names the address at which a socket is being allocated: no
    entry, and no connection that waits for `accept()`. -/
def Unused (w : World) (a : ℕ) (net : Net) : Prop :=
  (∀ o ∈ w.own.globals.fdTable.getD [], ∀ e ∈ o, e.socket = a → e.isIpv6 = net.isIpv6) ∧
    ∀ c ∈ w.clones, ∀ s ∈ w.own.heap c, s.parent = some a → w.net c = net

instance (w : World) (a : ℕ) (net : Net) : Decidable (Unused w a net) :=
  inferInstanceAs (Decidable (_ ∧ _))

/-- What each step has to meet: `bind()` and `connect()` get addresses of the socket's family, and an
    address is not used again while something of the other family names it. -/
def Agreeing (w : World) : Act → Prop
  | .socket net a .. => Unused w a net
  | .syn l a => Unused w a (w.net l)
  | .bind fd addr addrlen stale _ =>
    match getSocketFromFd w.own.globals fd with
    | .ok (some a) => BindAgrees (w.net a) addr addrlen stale
    | _ => True
  | .connect fd addr addrlen stale _ =>
    match getSocketFromFd w.own.globals fd with
    | .ok (some a) => ConnectAgrees (w.net a) addr addrlen stale
    | _ => True
  | _ => True

instance (net : Net) (addr : Memory) (addrlen : ℕ) (stale : List Char) :
    Decidable (BindAgrees net addr addrlen stale) := by
  unfold BindAgrees
  split
  · infer_instance
  · split
    · split
      · infer_instance
      · infer_instance
    · infer_instance

instance (net : Net) (addr : Memory) (addrlen : ℕ) (stale : List Char) :
    Decidable (ConnectAgrees net addr addrlen stale) := by
  unfold ConnectAgrees
  split
  · infer_instance
  · split
    · split
      · infer_instance
      · split <;> infer_instance
    · infer_instance

instance (w : World) (act : Act) : Decidable (Agreeing w act) := by
  unfold Agreeing
  split
  · infer_instance
  · infer_instance
  · split <;> infer_instance
  · split <;> infer_instance
  · infer_instance

/-! What calls leave as it is -/

/-- No entry is new, and no connection waits that did not. -/
structure Kept (own own' : Ownership.World) : Prop where
  entries : ∀ i e, entry own'.globals i = some e → entry own.globals i = some e
  parents : ∀ c s l, own'.heap c = some s → s.parent = some l →
    ∃ t, own.heap c = some t ∧ t.parent = some l

theorem Kept.put {own : Ownership.World} {a : ℕ} {s t : Ownership.HeapSocket}
    (ht : own.heap a = some t) (hp : ∀ l, s.parent = some l → t.parent = some l) :
    Kept own (own.put a s) := by
  refine ⟨fun _ _ he => he, ?_⟩
  intro c u l hu hl
  by_cases hc : c = a
  · rw [hc, Ownership.put_heap_self, Option.some.injEq] at hu
    exact ⟨t, hc ▸ ht, hp l (hu ▸ hl)⟩
  · rw [Ownership.put_heap_of_ne hc] at hu
    exact ⟨u, hu, hl⟩

theorem Kept.free (own : Ownership.World) (a : ℕ) : Kept own (own.free a) := by
  refine ⟨fun _ _ he => he, ?_⟩
  intro c u l hu hl
  by_cases hc : c = a
  · subst hc
    have hnone : (own.free c).heap c = none := Function.update_self ..
    rw [hnone] at hu
    cases hu
  · rw [Ownership.free_heap_of_ne hc] at hu
    exact ⟨u, hu, hl⟩

theorem kept_onSocket {own own' : Ownership.World} {fd : ℤ} {f : PicoSocket → PicoSocket}
    (h : Ownership.onSocket own fd f = some own') : Kept own own' := by
  rw [Ownership.onSocket] at h
  split at h
  · next a _ =>
    simp only [Option.map_eq_some_iff] at h
    obtain ⟨s, hs, rfl⟩ := h
    exact .put hs fun _ hl => hl
  · cases h

theorem kept_closeSocket {own : Ownership.World} {a : ℕ} {s : Ownership.HeapSocket}
    (hs : own.heap a = some s) (outEmpty : Bool) :
    Kept own (Ownership.closeSocket own a s outEmpty) := by
  rw [Ownership.closeSocket]
  split
  · exact .free own a
  · have hput := Kept.put (s := { s with toPicoSocket := picoSocketClose s.toPicoSocket outEmpty })
      hs fun _ hl => hl
    exact ⟨hput.entries, hput.parents⟩

theorem kept_close {inner : Binding} {own own' : Ownership.World} {fd : ℤ} {outEmpty : Bool}
    (h : Ownership.fdPicoSocketClose inner own fd outEmpty = some own') : Kept own own' := by
  rw [Ownership.fdPicoSocketClose] at h
  split at h
  · next a _ =>
    simp only [Option.bind_eq_some_iff] at h
    obtain ⟨s, hs, h⟩ := h
    have hclosed := kept_closeSocket hs outEmpty
    cases inner with
    | interposed =>
      simp only [Option.some.injEq] at h
      exact h ▸ hclosed
    | libc =>
      simp only at h
      split at h
      · next hdel =>
        simp only [Option.some.injEq] at h
        subst h
        obtain ⟨hgone, hold, -⟩ := fdElemDelete_entry hdel
        refine ⟨?_, hclosed.parents⟩
        intro i e he
        by_cases hi : i = fd
        · rw [hi, hgone] at he
          cases he
        · exact hclosed.entries i e (hold i hi ▸ he)
      · cases h
  · cases h

theorem kept_plain {inner : Binding} {own own' : Ownership.World} {act : Ownership.Act}
    (hplain : plain act) (h : Ownership.step inner own act = some own') : Kept own own' := by
  cases act with
  | listen fd backlog => exact kept_onSocket (f := fun s => picoSocketListen s backlog) h
  | close fd outEmpty => exact kept_close h
  | firstAck a =>
    simp only [Ownership.step, Option.bind_eq_some_iff, Option.ite_none_right_eq_some,
      Option.some.injEq] at h
    obtain ⟨s, hs, -, rfl⟩ := h
    exact .put hs fun _ hl => hl
  | del a =>
    simp only [Ownership.step, Option.bind_eq_some_iff, Option.ite_none_right_eq_some,
      Option.some.injEq] at h
    obtain ⟨s, hs, -, rfl⟩ := h
    have hput := Kept.put (s := { s with toPicoSocket := picoSocketDel s.toPicoSocket }) hs
      fun _ hl => hl
    exact ⟨hput.entries, hput.parents⟩
  | gc a =>
    simp only [Ownership.step, Option.ite_none_right_eq_some, Option.some.injEq] at h
    obtain ⟨-, rfl⟩ := h
    exact .free own a
  | socket _ _ _ _ | bind _ | connect _ | accept _ _ _ _ | syn _ _ => cases hplain

/-- An entry after a registration is an old one, or the new one with its flag set. -/
structure Registered (w w' : World) (a : ℕ) (v : ℤ) : Prop where
  net : w'.net = w.net
  clones : w'.clones = w.clones
  handed : w'.handed = w.handed
  heap : w'.own.heap = w.own.heap
  entries : ∀ i e, entry w'.own.globals i = some e →
    entry w.own.globals i = some e ∨ (e.socket = a ∧ e.isIpv6 = v)

theorem setIsIpv6_entry {g g' : Globals ℕ} {newFd v : ℤ} {l : FdElem ℕ}
    (hl : entry g newFd = some l) (h : setIsIpv6 g newFd v = .ok g') :
    entry g' newFd = some { l with isIpv6 := v } ∧ ∀ i, i ≠ newFd → entry g' i = entry g i := by
  rw [setIsIpv6, entry_eq_some.mp hl] at h
  exact setSlot_entry h

theorem register_spec {w w' : World} {alloc : Alloc} {fd : ℤ × ℤ} {a : ℕ} {v : ℤ}
    (h : register w alloc fd a v = some w') : Registered w w' a v := by
  rw [register] at h
  split at h
  · next newFd g hcreate =>
    rcases (fdElemCreate_created hcreate).map with ⟨hret, hsame⟩ | ⟨hret, -, hnew, hold⟩
    · rw [if_pos (by omega), Option.some.injEq] at h
      subst h
      exact ⟨rfl, rfl, rfl, rfl, fun i e he => .inl (hsame i ▸ he)⟩
    · obtain ⟨-, hpos, -⟩ := slot_ok_iff.mp ⟨_, entry_eq_some.mp hnew⟩
      rw [if_neg (by omega)] at h
      split at h
      · next g' hset =>
        rw [Option.some.injEq] at h
        subst h
        obtain ⟨hself, hother⟩ := setIsIpv6_entry (hret ▸ hnew) hset
        refine ⟨rfl, rfl, rfl, rfl, ?_⟩
        intro i e he
        by_cases hi : i = newFd
        · rw [hi, hself, Option.some.injEq] at he
          exact .inr (he ▸ ⟨rfl, rfl⟩)
        · exact .inl (by rw [← hold i (hret ▸ hi), ← hother i hi]; exact he)
      · cases h
  · cases h

/-- A call on the socket at `a` that has handed over nothing, or `o`. -/
structure Called (w w' : World) (a : ℕ) (o : Option Address) : Prop extends Kept w.own w'.own where
  net : w'.net = w.net
  clones : w'.clones = w.clones
  handed : ∀ h ∈ w'.handed, h ∈ w.handed ∨ (h.net = w.net a ∧ o = some h.object)

/-- Refused before the stack is asked for anything. -/
structure Refused (w w' : World) : Prop where
  ret : w'.ret = -1
  links : w'.links = w.links
  heap : w'.own.heap = w.own.heap
  timers : w'.own.timers = w.own.timers
  handed : w'.handed = w.handed

theorem called_fail (w : World) (e : FdErr) (a : ℕ) (o : Option Address) :
    Called w (w.fail e) a o :=
  ⟨⟨fun _ _ he => he, fun _ s _ hs hp => ⟨s, hs, hp⟩⟩, rfl, rfl, fun _ h => .inl h⟩

theorem refused_fail (w : World) (e : FdErr) : Refused w (w.fail e) := ⟨rfl, rfl, rfl, rfl, rfl⟩

theorem mem_hand {w : World} {a : ℕ} {o : Address} {h : Handed} (hh : h ∈ (w.hand a o).handed) :
    h ∈ w.handed ∨ (h.net = w.net a ∧ some o = some h.object) := by
  rcases List.mem_cons.mp hh with rfl | hold
  · exact .inr ⟨rfl, rfl⟩
  · exact .inl hold

theorem called_stackCall {w w' : World} {fd : ℤ} {a : ℕ} {o : Address} {ok : Bool}
    {f : PicoSocket → PicoSocket} (h : stackCall w fd a o ok f = some w') :
    Called w w' a (some o) := by
  simp only [stackCall, Option.map_eq_some_iff] at h
  obtain ⟨own, hown, rfl⟩ := h
  exact ⟨kept_onSocket hown, rfl, rfl, fun _ hx => mem_hand hx⟩

/-- A link that is found or added changes nothing else. -/
theorem link_eq_some {w w' : World} {env : Env} {o : Address} (h : link w env o = some w') :
    w'.own = w.own ∧ w'.net = w.net ∧ w'.clones = w.clones ∧ w'.handed = w.handed := by
  rw [link] at h
  split at h
  · cases h
    exact ⟨rfl, rfl, rfl, rfl⟩
  · split at h
    · cases h
      exact ⟨rfl, rfl, rfl, rfl⟩
    · cases h

theorem Called.of_link {w u w' : World} {env : Env} {o p : Address} {a : ℕ}
    (h : link w env o = some u) (hc : Called u w' a (some p)) : Called w w' a (some p) := by
  obtain ⟨hown, hnet, hclones, hhanded⟩ := link_eq_some h
  refine ⟨hown ▸ hc.toKept, hc.net.trans hnet, hc.clones.trans hclones, ?_⟩
  intro x hx
  rw [← hhanded, ← hnet]
  exact hc.handed x hx

/-- The object `fd_pico_socket_bind` reads out of the text. -/
def bindAddress (address : List Char) : Option Address :=
  if isIpv4 address then (picoStringToIpv4 address).map .ip4
  else if isIpv6 address then (picoStringToIpv6 address).toOption.map .ip6
  else none

/-- The same for `fd_pico_socket_connect` on an entry of the family. -/
def connectAddress (net : Net) (address : List Char) : Option Address :=
  match net with
  | .ipv4 => (picoStringToIpv4 address).map .ip4
  | .ipv6 => (picoStringToIpv6 address).toOption.map .ip6

/-- BIND: it hands over what it reads out of the text, and without that it refuses. -/
theorem fdPicoSocketBind_spec {masks : Masks} {w w' : World} {fd : ℤ} {a : ℕ} {address : List Char}
    {env : Env} (h : fdPicoSocketBind masks w fd a address env = some w') :
    Called w w' a (bindAddress address) ∧ (bindAddress address = none → Refused w w') := by
  rw [fdPicoSocketBind] at h
  by_cases hv4 : isIpv4 address
  · rw [if_pos hv4] at h
    rw [bindAddress, if_pos hv4]
    cases hip : picoStringToIpv4 address with
    | none =>
      rw [hip] at h
      cases h
      exact ⟨called_fail .., fun _ => refused_fail ..⟩
    | some ip =>
      rw [hip] at h
      refine ⟨?_, fun hno => by cases hno⟩
      simp only at h
      split at h
      · cases h
        exact called_fail ..
      · split at h
        · cases h
          exact called_fail ..
        · next u hlink => exact .of_link hlink (called_stackCall h)
  · rw [if_neg hv4] at h
    rw [bindAddress, if_neg hv4]
    by_cases hv6 : isIpv6 address
    · rw [if_pos hv6] at h
      rw [if_pos hv6]
      cases hip : picoStringToIpv6 address with
      | error err =>
        rw [hip] at h
        cases err with
        | overrun => cases h
        | invalid =>
          cases h
          exact ⟨called_fail .., fun _ => refused_fail ..⟩
      | ok ip =>
        rw [hip] at h
        refine ⟨?_, fun hno => by cases hno⟩
        simp only at h
        split at h
        · cases h
        · cases h
          exact called_fail ..
        · split at h
          · cases h
            exact called_fail ..
          · next u hlink =>
            split at h
            · exact .of_link hlink (called_stackCall h)
            · cases h
              exact .of_link hlink (called_fail ..)
    · rw [if_neg hv6] at h
      rw [if_neg hv6]
      cases h
      exact ⟨called_fail .., fun _ => refused_fail ..⟩

/-- CONNECT, on an entry whose flag is that of the family. -/
theorem fdPicoSocketConnect_spec {w w' : World} {fd : ℤ} {l : FdElem ℕ} {address : List Char}
    {ok : Bool} {net : Net} (hl : l.isIpv6 = net.isIpv6)
    (h : fdPicoSocketConnect w fd l address ok = some w') :
    Called w w' l.socket (connectAddress net address) ∧
      (connectAddress net address = none → Refused w w') := by
  rw [fdPicoSocketConnect, hl] at h
  cases net with
  | ipv4 =>
    rw [if_pos (by decide)] at h
    rw [connectAddress]
    cases hip : picoStringToIpv4 address with
    | none =>
      rw [hip] at h
      cases h
      exact ⟨called_fail .., fun _ => refused_fail ..⟩
    | some ip =>
      rw [hip] at h
      exact ⟨called_stackCall h, fun hno => by cases hno⟩
  | ipv6 =>
    rw [if_neg (by decide)] at h
    rw [connectAddress]
    cases hip : picoStringToIpv6 address with
    | error err =>
      rw [hip] at h
      cases err with
      | overrun => cases h
      | invalid =>
        cases h
        exact ⟨called_fail .., fun _ => refused_fail ..⟩
    | ok ip =>
      rw [hip] at h
      exact ⟨called_stackCall h, fun hno => by cases hno⟩

/-! The object fits the socket -/

/-- The text decides: a dot makes an IPv4 address of it, or nothing. -/
theorem bindAddress_eq_some {address : List Char} {o : Address} (h : bindAddress address = some o) :
    (isIpv4 address ∧ o.family = .ipv4 ∧ picoStringToIpv4 address ≠ none) ∨
      (¬ isIpv4 address ∧ isIpv6 address ∧ o.family = .ipv6 ∧
        (picoStringToIpv6 address).toOption ≠ none) := by
  rw [bindAddress] at h
  split at h
  · next hv4 =>
    obtain ⟨ip, hip, rfl⟩ := Option.map_eq_some_iff.mp h
    exact .inl ⟨hv4, rfl, by simp [hip]⟩
  · next hv4 =>
    split at h
    · next hv6 =>
      obtain ⟨ip, hip, rfl⟩ := Option.map_eq_some_iff.mp h
      exact .inr ⟨hv4, hv6, rfl, by simp [hip]⟩
    · cases h

theorem connectAddress_eq_some {net : Net} {address : List Char} {o : Address}
    (h : connectAddress net address = some o) : o.family = net := by
  cases net with
  | ipv4 =>
    obtain ⟨ip, -, rfl⟩ := Option.map_eq_some_iff.mp h
    rfl
  | ipv6 =>
    obtain ⟨ip, -, rfl⟩ := Option.map_eq_some_iff.mp h
    rfl

theorem BindAgrees.object {net : Net} {addr : Memory} {addrlen : ℕ} {stale address : List Char}
    {o : Address} (h : BindAgrees net addr addrlen stale)
    (ha : addrString addr addrlen stale = some address) (ho : bindAddress address = some o) :
    o.family = net ∧ Agrees net addr := by
  rw [BindAgrees] at h
  rw [addrString] at ha
  by_cases h16 : addrlen = 16
  · rw [if_pos h16] at h ha
    rw [Option.some.injEq] at ha
    subst ha
    obtain ⟨rfl, hagrees⟩ := h
    rcases bindAddress_eq_some ho with ⟨-, hfamily, -⟩ | ⟨hdot, -⟩
    · exact ⟨hfamily, hagrees⟩
    · exact absurd (isIpv4_inetNtoa _) hdot
  · rw [if_neg h16] at h ha
    by_cases h28 : addrlen = 28
    · subst h28
      rw [if_pos rfl] at h ha
      rw [Option.some.injEq] at ha
      cases hntop : inetNtop (fun i => addr (8 + i)) 28 with
      | some text =>
        rw [hntop, Option.getD_some] at ha
        rw [hntop] at h
        subst ha
        rcases bindAddress_eq_some ho with ⟨-, -, hreads⟩ | ⟨hdot, -, hfamily, -⟩
        · exact absurd (picoStringToIpv4_inetNtop hntop) hreads
        · obtain ⟨rfl, hagrees⟩ := h.resolve_left hdot
          exact ⟨hfamily, hagrees⟩
      | none =>
        rw [hntop, Option.getD_none] at ha
        rw [hntop] at h
        subst ha
        simp only at h
        rcases bindAddress_eq_some ho with ⟨hdot, hfamily, hreads⟩ | ⟨hdot, hcolon, hfamily, hreads⟩
        · rw [if_pos hdot] at h
          obtain ⟨rfl, hagrees⟩ := h.resolve_left hreads
          exact ⟨hfamily, hagrees⟩
        · rw [if_neg hdot, if_pos hcolon] at h
          obtain ⟨rfl, hagrees⟩ := h.resolve_left hreads
          exact ⟨hfamily, hagrees⟩
    · rw [if_neg h28] at ha
      cases ha

theorem ConnectAgrees.object {net : Net} {addr : Memory} {addrlen : ℕ} {stale address : List Char}
    {o : Address} (h : ConnectAgrees net addr addrlen stale)
    (ha : addrString addr addrlen stale = some address) (ho : connectAddress net address = some o) :
    Agrees net addr := by
  rw [ConnectAgrees.eq_def] at h
  rw [addrString] at ha
  by_cases h16 : addrlen = 16
  · rw [if_pos h16] at h ha
    rw [Option.some.injEq] at ha
    subst ha
    cases net with
    | ipv4 => exact h rfl
    | ipv6 =>
      rw [connectAddress, picoStringToIpv6_inetNtoa] at ho
      cases ho
  · rw [if_neg h16] at h ha
    by_cases h28 : addrlen = 28
    · subst h28
      rw [if_pos rfl] at h ha
      rw [Option.some.injEq] at ha
      cases hntop : inetNtop (fun i => addr (8 + i)) 28 with
      | some text =>
        rw [hntop, Option.getD_some] at ha
        rw [hntop] at h
        subst ha
        cases net with
        | ipv4 =>
          rw [connectAddress, picoStringToIpv4_inetNtop hntop] at ho
          cases ho
        | ipv6 => exact h rfl
      | none =>
        rw [hntop, Option.getD_none] at ha
        rw [hntop] at h
        subst ha
        cases net with
        | ipv4 =>
          refine h.resolve_left fun hno => ?_
          rw [connectAddress, hno] at ho
          cases ho
        | ipv6 =>
          refine h.resolve_left fun hno => ?_
          rw [connectAddress, hno] at ho
          cases ho
    · rw [if_neg h28] at ha
      cases ha

/-! Runs -/

/-- Flags and families are the same all over, and so were those of each hand-over. -/
structure Inv (w : World) : Prop where
  flags : ∀ i e, entry w.own.globals i = some e → e.isIpv6 = (w.net e.socket).isIpv6
  clones : ∀ c s l, w.own.heap c = some s → s.parent = some l → c ∈ w.clones ∧ w.net c = w.net l
  handed : ∀ h ∈ w.handed, h.object.family = h.net

/-- STEP: a call that hands over nothing, or an object of the socket's family. -/
theorem Inv.called {w w' : World} {a : ℕ} {o : Option Address} (h : Inv w) (hc : Called w w' a o)
    (ho : ∀ p ∈ o, p.family = w.net a) : Inv w' := by
  refine ⟨?_, ?_, ?_⟩
  · intro i e he
    rw [hc.net]
    exact h.flags i e (hc.entries i e he)
  · intro c s l hs hl
    obtain ⟨t, ht, hp⟩ := hc.parents c s l hs hl
    rw [hc.net, hc.clones]
    exact h.clones c t l ht hp
  · intro x hx
    rcases hc.handed x hx with hold | ⟨hnet, hobject⟩
    · exact h.handed x hold
    · rw [hnet]
      exact ho x.object hobject

/-- STEP: a new entry whose flag is the family of its socket. -/
theorem Inv.registered {w w' : World} {a : ℕ} {v : ℤ} (h : Inv w) (hr : Registered w w' a v)
    (hv : v = (w.net a).isIpv6) : Inv w' := by
  refine ⟨?_, ?_, ?_⟩
  · intro i e he
    rw [hr.net]
    rcases hr.entries i e he with hold | ⟨rfl, hflag⟩
    · exact h.flags i e hold
    · rw [hflag, hv]
  · rw [hr.heap, hr.net, hr.clones]
    exact h.clones
  · rw [hr.handed]
    exact h.handed

theorem mem_of_entry {g : Globals ℕ} {i : ℤ} {e : FdElem ℕ} (h : entry g i = some e) :
    some e ∈ g.fdTable.getD [] := by
  rw [entry_eq_some] at h
  obtain ⟨hsome, hi⟩ := slot_ok_iff.mp ⟨_, h⟩
  obtain ⟨l, hl⟩ := Option.isSome_iff_exists.mp hsome
  rw [slot_some hl, if_pos hi, Except.ok.injEq, Option.join_eq_some_iff] at h
  rw [hl]
  exact List.mem_of_getElem? h

/-- STEP: a socket at an address that nothing of the other family names. -/
theorem Inv.allocate {w : World} {a : ℕ} {net : Net} {s : Ownership.HeapSocket}
    {clones : List ℕ} (h : Inv w) (hu : Unused w a net) (hfree : w.own.heap a = none)
    (hclones : ∀ c ∈ w.clones, c ∈ clones)
    (hs : ∀ l, s.parent = some l → a ∈ clones ∧ l ≠ a ∧ net = w.net l) :
    Inv { w.put a s with net := Function.update w.net a net, clones := clones } := by
  obtain ⟨hentries, hwaiting⟩ := hu
  refine ⟨?_, ?_, h.handed⟩
  · intro i e he
    by_cases ha : e.socket = a
    · simp only [ha, Function.update_self]
      exact hentries _ (mem_of_entry he) e rfl ha
    · simp only [Function.update_of_ne ha]
      exact h.flags i e he
  · intro c t l ht hl
    by_cases hc : c = a
    · subst hc
      change (w.own.put c s).heap c = some t at ht
      rw [Ownership.put_heap_self, Option.some.injEq] at ht
      subst ht
      obtain ⟨hmem, hne, hnet⟩ := hs l hl
      refine ⟨hmem, ?_⟩
      simp only [Function.update_self, Function.update_of_ne hne]
      exact hnet
    · change (w.own.put a s).heap c = some t at ht
      rw [Ownership.put_heap_of_ne hc] at ht
      obtain ⟨hmem, hnet⟩ := h.clones c t l ht hl
      refine ⟨hclones c hmem, ?_⟩
      simp only [Function.update_of_ne hc]
      by_cases hla : l = a
      · subst hla
        rw [Function.update_self]
        exact hwaiting c hmem t ht hl
      · rw [Function.update_of_ne hla]
        exact hnet

theorem acceptObject_family {l : FdElem ℕ} {net : Net} (h : l.isIpv6 = net.isIpv6) :
    (acceptObject l).family = net := by
  rw [acceptObject, h]
  cases net <;> rfl

/-- STEP: what an agreeing step keeps. -/
theorem inv_step {inner : Binding} {masks : Masks} {w w' : World} {act : Act} (h : Inv w)
    (hagree : Agreeing w act) (hs : step inner masks w act = some w') : Inv w' := by
  cases act with
  | socket net a proto pipe alloc =>
    simp only [step, Option.ite_none_right_eq_some] at hs
    obtain ⟨hfree, hs⟩ := hs
    have hput : Inv { w.put a { picoSocketOpen proto with parent := none } with
        net := Function.update w.net a net } := by
      refine h.allocate hagree hfree ?_ (by simp)
      exact fun c hc => hc
    cases pipe with
    | none =>
      cases hs
      exact hput.called (called_fail _ _ a none) (by simp)
    | some fd =>
      exact hput.registered (register_spec hs) (by simp)
  | bind fd addr addrlen stale env =>
    simp only [step] at hs
    simp only [Agreeing] at hagree
    split at hs
    · next a hfd =>
      rw [hfd] at hagree
      split at hs
      · next address haddress =>
        exact h.called (fdPicoSocketBind_spec hs).1 fun o ho => (hagree.object haddress ho).1
      · cases hs
        exact ⟨h.flags, h.clones, h.handed⟩
    · cases hs
  | connect fd addr addrlen stale ok =>
    simp only [step] at hs
    split at hs
    · next l hl =>
      split at hs
      · next address haddress =>
        have hflag := h.flags fd l (entry_eq_some.mpr hl)
        exact h.called (fdPicoSocketConnect_spec hflag hs).1 fun o ho => connectAddress_eq_some ho
      · cases hs
        exact ⟨h.flags, h.clones, h.handed⟩
    · cases hs
  | accept fd a pipe alloc =>
    simp only [step] at hs
    split at hs
    · next l s hl hheap =>
      simp only [Option.ite_none_right_eq_some] at hs
      obtain ⟨⟨hparent, -⟩, hs⟩ := hs
      have hflag := h.flags fd l (entry_eq_some.mpr hl)
      obtain ⟨-, hnet⟩ := h.clones a s l.socket hheap hparent
      have hgiven : Inv ((w.hand l.socket (acceptObject l)).put a { s with parent := none }) := by
        refine h.called (a := l.socket) (o := some (acceptObject l)) ?_ ?_
        · exact ⟨.put hheap (by simp), rfl, rfl, fun _ hx => mem_hand hx⟩
        · rintro _ ⟨⟩
          exact acceptObject_family hflag
      refine hgiven.registered (register_spec hs) ?_
      change _ = (w.net a).isIpv6
      rw [hnet, hflag]
      cases w.net l.socket <;> rfl
    · cases hs
  | acceptNull fd =>
    simp only [step] at hs
    split at hs
    · next l hl =>
      cases hs
      have hflag := h.flags fd l (entry_eq_some.mpr hl)
      refine h.called (a := l.socket) (o := some (acceptObject l)) ?_ ?_
      · exact ⟨(called_fail w .socketIsNull l.socket none).toKept, rfl, rfl, fun _ hx => mem_hand hx⟩
      · rintro _ ⟨⟩
        exact acceptObject_family hflag
    · cases hs
  | syn l a =>
    simp only [step, Ownership.step, Option.map_eq_some_iff, Option.ite_none_right_eq_some,
      Option.some.injEq] at hs
    obtain ⟨own, ⟨⟨hlisten, hfree⟩, rfl⟩, rfl⟩ := hs
    have hne : l ≠ a := by
      rintro rfl
      rw [hfree] at hlisten
      cases hlisten
    refine h.allocate hagree hfree (fun _ hc => List.mem_cons_of_mem _ hc) ?_
    rintro _ ⟨⟩
    exact ⟨List.mem_cons_self .., hne, rfl⟩
  | other act =>
    simp only [step, Option.ite_none_right_eq_some, Option.map_eq_some_iff] at hs
    obtain ⟨hplain, own, hown, rfl⟩ := hs
    exact h.called (a := 0) (o := none) ⟨kept_plain hplain hown, rfl, rfl, fun _ hx => .inl hx⟩
      (by simp)

theorem inv_begin (rlimCur : ℕ) : Inv (begin rlimCur) := by
  have hempty : ∀ i, entry (begin rlimCur).own.globals i = none := init_entry start rlimCur
  refine ⟨?_, ?_, ?_⟩
  · intro i e he
    rw [hempty] at he
    cases he
  · rintro c s l ⟨⟩
  · rintro h ⟨⟩

/-- A `bind()` or `connect()` whose `sockaddr` says that it is of the other family. -/
def TakesOther (w : World) : Act → Prop
  | .bind fd addr .. | .connect fd addr .. =>
    ∃ a, getSocketFromFd w.own.globals fd = .ok (some a) ∧ saFamily addr = (w.net a).other.af
  | _ => False

/-- STEP: an agreeing call with a `sockaddr` of the other family is refused. -/
theorem step_refused {inner : Binding} {masks : Masks} {w w' : World} {act : Act} (h : Inv w)
    (hother : TakesOther w act) (hagree : Agreeing w act) (hs : step inner masks w act = some w') :
    Refused w w' := by
  cases act with
  | bind fd addr addrlen stale env =>
    obtain ⟨a, hfd, hfamily⟩ := hother
    simp only [step, hfd] at hs
    simp only [Agreeing, hfd] at hagree
    split at hs
    · next address haddress =>
      refine (fdPicoSocketBind_spec hs).2 ?_
      rw [Option.eq_none_iff_forall_ne_some]
      intro o ho
      exact (hagree.object haddress ho).2 hfamily
    · cases hs
      exact ⟨rfl, rfl, rfl, rfl, rfl⟩
  | connect fd addr addrlen stale ok =>
    obtain ⟨a, hfd, hfamily⟩ := hother
    obtain ⟨l, hl, rfl⟩ := getSocketFromFd_some.mp hfd
    simp only [step, entry_eq_some.mp hl] at hs
    simp only [Agreeing, hfd] at hagree
    split at hs
    · next address haddress =>
      refine (fdPicoSocketConnect_spec (h.flags fd l hl) hs).2 ?_
      rw [Option.eq_none_iff_forall_ne_some]
      intro o ho
      exact hagree.object haddress ho hfamily
    · cases hs
      exact ⟨rfl, rfl, rfl, rfl, rfl⟩
  | socket _ _ _ _ _ | accept _ _ _ _ | acceptNull _ | syn _ _ | other _ => cases hother

/-- What is to hold in a state: the objects handed over, the flags, and what the next call does
    with a `sockaddr` of the other family, when it is one of `C`. -/
structure Matches (inner : Binding) (masks : Masks) (C : World → Act → Prop) (w : World) : Prop where
  objects : ∀ h ∈ w.handed, h.object.family = h.net
  flags : ∀ i e, entry w.own.globals i = some e → e.isIpv6 = (w.net e.socket).isIpv6
  next : ∀ act w', TakesOther w act → C w act → step inner masks w act = some w' → Refused w w'

/-- FAMILIES MATCH in every state of a run of agreeing steps. -/
theorem families_match {inner : Binding} {masks : Masks} {rlimCur : ℕ} {as : List Act} {w : World}
    (hm : Meets (step inner masks) Agreeing (begin rlimCur) as)
    (hr : run (step inner masks) (begin rlimCur) as = some w) : Matches inner masks Agreeing w := by
  have hend : Inv w :=
    run_keeps (fun _ _ _ hi ha hs => inv_step hi ha hs) (inv_begin rlimCur) hm hr
  exact ⟨hend.handed, hend.flags, fun _ _ hother hagree hs => step_refused hend hother hagree hs⟩

/-- The masks as the library comes with them. -/
def defaultMasks : Masks :=
  ⟨['2', '5', '5', '.', '2', '5', '5', '.', '2', '5', '5', '.', '0'], [':', ':']⟩

/-- An IPv4 `sockaddr`, port 80. -/
def sockaddrIn (a b c d : UInt8) : Memory := fun i => [2, 0, 0, 80, a, b, c, d].getD i 0

/-- An IPv6 `sockaddr` of the address `2001::a`. -/
def sockaddrIn6 : Memory := fun i =>
  if i = 0 then 10 else if i = 3 then 80 else if i = 8 then 0x20 else if i = 9 then 1
  else if i = 23 then 0xa else 0

/-- An IPv6 server binds, listens and accepts. -/
def serve6 : List Act :=
  [.socket .ipv6 50 .tcp (some (3, 4)) .all, .bind 3 sockaddrIn6 28 [] ⟨false, true, true, true⟩,
    .other (.listen 3 5), .syn 50 60, .other (.firstAck 60), .accept 3 60 (5, 6) .all]

theorem serve6_runs : (run (step .interposed defaultMasks) (begin 1024) serve6).isSome := by
  decide +kernel

theorem families_match_serve6 :
    Matches .interposed defaultMasks Agreeing (Option.get _ serve6_runs) :=
  families_match (by decide +kernel) (Option.some_get serve6_runs).symm

/-- An IPv6 socket is bound with an IPv4 `sockaddr`; the stack looks for that address among the IPv6
    links and does not find it. -/
def bindOther : List Act :=
  [.socket .ipv6 50 .tcp (some (3, 4)) .all,
    .bind 3 (sockaddrIn 10 0 0 1) 16 [] ⟨false, true, true, false⟩]

theorem bindOther_runs : (run (step .interposed defaultMasks) (begin 1024) bindOther).isSome := by
  decide +kernel

/-- The IPv6 socket is given a `pico_ip4`, and the link has been added. -/
theorem bind_other_family : ¬ ∀ (as : List Act) (w : World),
    run (step .interposed defaultMasks) (begin 1024) as = some w →
      Matches .interposed defaultMasks (fun _ _ => True) w := by
  intro h
  have hmatch := h bindOther _ (Option.some_get bindOther_runs).symm
  have hgiven : (Option.get _ bindOther_runs).handed = [⟨.ipv6, .ip4 [10, 0, 0, 1]⟩] := by
    decide +kernel
  have hfamily := hmatch.objects ⟨.ipv6, .ip4 [10, 0, 0, 1]⟩ (by rw [hgiven]; simp)
  exact absurd hfamily (by decide)

end FdPicotcp.Family
