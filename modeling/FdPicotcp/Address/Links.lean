import FdPicotcp.Address.Dad
import FdPicotcp.Address.Family
import FdPicotcp.Stack.PortTable

/-! Does `bind()` change the interfaces only as asked?

    `fd_pico_socket_bind` adds a link for an address that the lookup does not find, before
    `pico_socket_bind` makes its checks and, for IPv6, before the address has been verified. Nothing
    takes the link back when one of these fails, and the wildcard addresses get a link as well.

    The world is the port table with the links and routes of both families. What the stack does to
    the new link while the call waits is a list of polls, each with the seconds waited so far.
    `Proper` says when a call changes only what it was asked to. -/

namespace FdPicotcp.Links
open AddressText
open Dad (Addr PicoIpv6Link isLinklocal picoIpv6LinkFind)
open Family (Address Masks bindAddress)
open PortTable (PicoSocket BindCall)

/-! Links and routes -/

/-- What `ipv4_route_compare` and `ipv6_route_compare` look at. -/
structure RouteKey where
  dest : Addr
  netmask : Addr
  metric : ℕ
  deriving DecidableEq

/-- The rest of a route; a link is named by its address. -/
structure Route where
  gateway : Addr
  link : Addr
  deriving DecidableEq

/-- The routing table of one family. -/
abbrev Routes := RouteKey → Option Route

/-- `Tree_dev_link` (with the netmasks), `Routes`, `mcast_default_link` and the link of
    `default_bcast_route`, and the same for IPv6. There is one device. -/
structure Ifaces where
  links4 : Addr → Option Addr
  routes4 : Routes
  mcast4 : Option Addr
  bcast4 : Option Addr
  links6 : Dad.Links
  routes6 : Routes
  mcast6 : Option Addr

/-- `2000::/3` -/
def isGlobal (addr : Addr) : Bool := addr.getD 0 0 >>> 5 = 1

/-- What `pico_ipv6_global_get` returns. -/
structure Global where
  addr : Addr
  global : isGlobal addr = true

/-- Whether there are a device and memory for the link, and memory for each route, in the order of
    the calls. -/
structure LinkEnv where
  ok : Bool
  mcastRoute : Bool
  route : Bool
  mcastRoute2 : Bool
  globalGet : Option Global

/-- `addr & netmask` -/
def network (addr netmask : Addr) : Addr := List.zipWith (· &&& ·) addr netmask

/-- The key of the route to a link's network. -/
def networkKey (addr netmask : Addr) : RouteKey := ⟨network addr netmask, netmask, 1⟩

/-- `224.0.0.0/4` -/
def mcastKey4 : RouteKey := ⟨[224, 0, 0, 0], [240, 0, 0, 0], 1⟩

/-- `ff00::/8` -/
def mcastKey6 : RouteKey := ⟨0xff :: List.replicate 15 0, 0xff :: List.replicate 15 0, 1⟩

/-- With no gateway. -/
def picoIpv4RouteAdd (routes : Routes) (key : RouteKey) (link : Addr) (ok : Bool) : Routes :=
  if (routes key).isSome ∨ ok = false then routes
  else Function.update routes key (some ⟨List.replicate 4 0, link⟩)

/-- `pico_ipv4_link_add`: the link, and up to two routes through it. -/
def picoIpv4LinkAdd (net : Ifaces) (addr netmask : Addr) (env : LinkEnv) : Option Ifaces :=
  if env.ok = false ∨ (net.links4 addr).isSome then none
  else
    let routes := if net.mcast4 = none then picoIpv4RouteAdd net.routes4 mcastKey4 addr env.mcastRoute
      else net.routes4
    some { net with
      links4 := Function.update net.links4 addr (some netmask)
      routes4 := picoIpv4RouteAdd routes (networkKey addr netmask) addr env.route
      mcast4 := some (net.mcast4.getD addr)
      bcast4 := some (net.bcast4.getD addr) }

/-- With no gateway. A route to a global network goes over a link with a global address. -/
def picoIpv6RouteAdd (routes : Routes) (key : RouteKey) (link : Addr) (ok : Bool)
    (globalGet : Option Global) : Routes :=
  if (routes key).isSome ∨ ok = false then routes
  else
    let link := if isGlobal key.dest ∧ isGlobal link = false then globalGet.map Global.addr
      else some link
    match link with
    | none => routes
    | some link => Function.update routes key (some ⟨List.replicate 16 0, link⟩)

/-- `pico_ipv6_link_add`: the link, whose detection begins, and up to three routes through it. -/
def picoIpv6LinkAdd (net : Ifaces) (addr netmask : Addr) (env : LinkEnv) : Option Ifaces :=
  (Dad.picoIpv6LinkAdd net.links6 addr env.ok).map fun links6 =>
    let routes := if net.mcast6 = none then
        picoIpv6RouteAdd net.routes6 mcastKey6 addr env.mcastRoute env.globalGet
      else net.routes6
    let routes := picoIpv6RouteAdd routes (networkKey addr netmask) addr env.route env.globalGet
    { net with
      links6
      routes6 := picoIpv6RouteAdd routes mcastKey6 addr env.mcastRoute2 env.globalGet
      mcast6 := some (net.mcast6.getD addr) }

/-- `pico_ipv6_cleanup_routes` -/
def picoIpv6CleanupRoutes (routes : Routes) (link : Addr) : Routes :=
  fun key => (routes key).filter fun r => r.link ≠ link

/-- `pico_ipv6_link_del` -/
def picoIpv6LinkDel (net : Ifaces) (addr : Addr) : Ifaces :=
  { net with
    links6 := Function.update net.links6 addr none
    routes6 := picoIpv6CleanupRoutes net.routes6 addr }

/-- `netmask6` of `pico_device_ipv6_random_ll` -/
def netmask64 : Addr := List.replicate 8 0xff ++ List.replicate 8 0

/-- For a link-local address the device gets another one, `random`. -/
def ipv6DuplicateDetected (net : Ifaces) (addr random : Addr) (env : LinkEnv) : Ifaces :=
  let net := picoIpv6LinkDel net addr
  if isLinklocal addr then (picoIpv6LinkAdd net random netmask64 env).getD net else net

/-! Waiting -/

/-- What the stack does about the address that a call waits for. -/
inductive StackEvent where
  | timer (up : Bool)
  | duplicate (random : Addr) (env : LinkEnv)

/-- What the stack thread does to the links meanwhile. -/
def stackEvent (addr : Addr) (net : Ifaces) : StackEvent → Ifaces
  | .timer up => { net with links6 := Dad.picoIpv6NdDad net.links6 addr up }
  | .duplicate random env =>
    match net.links6 addr with
    | none => net
    | some l => if l.istentative then ipv6DuplicateDetected net addr random env else net

/-- A turn of the loop: the seconds since `start_time`, and what happens during `usleep`. -/
structure Poll where
  waited : ℕ
  events : List StackEvent

/-- The loop, with whether it ends because the link is found; `none` when the polls run out. -/
def waitForDad (addr : Addr) : Ifaces → List Poll → Option (Ifaces × Bool)
  | net, [] => if picoIpv6LinkFind net.links6 addr then some (net, true) else none
  | net, p :: ps =>
    if picoIpv6LinkFind net.links6 addr then some (net, true)
    else if 3 ≤ p.waited then some (net, false)
    else waitForDad addr (p.events.foldl (stackEvent addr) net) ps

/-! The call -/

/-- The tables of ports, and the device. -/
structure World where
  ports : PortTable.World
  net : Ifaces

/-- `junk` is what lies behind a `pico_ip4` on the stack. -/
structure Env where
  link : LinkEnv
  polls : List Poll
  junk : Addr
  rand : BitVec 32
  add : PortTable.AddEnv

/-- What `pico_socket_bind` reads through its pointer to an address object. -/
def readAddr (isIpv6 : Bool) (junk : Addr) : Address → Addr
  | .ip4 addr => if isIpv6 then addr ++ junk else addr
  | .ip6 addr => if isIpv6 then addr else addr.take 4

/-- `pico_ipv4_link_find`, `pico_ipv6_link_find` -/
def linkFind (net : Ifaces) (isIpv6 : Bool) (addr : Addr) : Bool :=
  if isIpv6 then picoIpv6LinkFind net.links6 addr else (net.links4 addr).isSome

/-- What `pico_socket_bind` of the port table meets. -/
def bindCall (env : Env) (s : PicoSocket) (o : Address) (port : BitVec 16) (linked : Bool) : BindCall :=
  ⟨readAddr s.isIpv6 env.junk o, port, linked, env.rand, env.add⟩

/-- `pico_socket_bind`: the object is read by the family of the socket. -/
def picoSocketBind (w : World) (net : Ifaces) (a : ℕ) (s : PicoSocket) (o : Address)
    (port : BitVec 16) (env : Env) : World × ℤ :=
  let linked := linkFind net s.isIpv6 (readAddr s.isIpv6 env.junk o)
  let (ports, ret) := PortTable.picoSocketBind w.ports a s (bindCall env s o port linked)
  (⟨ports, net⟩, ret)

/-- `fd_pico_socket_bind` on the device and the ports. A link that has been added stays, whatever the
    socket says to the address. -/
def fdPicoSocketBind (masks : Masks) (w : World) (fd : ℤ) (address : List Char) (port : BitVec 16)
    (env : Env) : Option (World × ℤ) :=
  match w.ports.socketOf fd with
  | none => some (w, -1)
  | some (a, s) =>
    if isIpv4 address then
      match picoStringToIpv4 address, picoStringToIpv4 masks.ipv4 with
      | some ip, some netmask =>
        match if (w.net.links4 ip).isSome then some w.net
          else picoIpv4LinkAdd w.net ip netmask env.link with
        | none => some (w, -1)
        | some net => some (picoSocketBind w net a s (.ip4 ip) port env)
      | _, _ => some (w, -1)
    else if isIpv6 address then
      match picoStringToIpv6 address with
      | .error .overrun => none
      | .error .invalid => some (w, -1)
      | .ok ip =>
        match picoStringToIpv6 masks.ipv6 with
        | .error .overrun => none
        | .error .invalid => some (w, -1)
        | .ok netmask =>
          match if picoIpv6LinkFind w.net.links6 ip then some w.net
            else picoIpv6LinkAdd w.net ip netmask env.link with
          | none => some (w, -1)
          | some net => (waitForDad ip net env.polls).map fun (net, found) =>
            if found then picoSocketBind w net a s (.ip6 ip) port env else ({ w with net }, -1)
    else some (w, -1)

/-! What is asked -/

/-- The links and routes are what they were. -/
structure Untouched (net net' : Ifaces) : Prop where
  links4 : net'.links4 = net.links4
  routes4 : net'.routes4 = net.routes4
  bcast4 : net'.bcast4 = net.bcast4
  links6 : net'.links6 = net.links6
  routes6 : net'.routes6 = net.routes6

/-- `0.0.0.0`, `::` -/
def IsWildcard : Address → Prop
  | .ip4 addr => addr = List.replicate 4 0
  | .ip6 addr => addr = List.replicate 16 0

/-- No link is new but that of the address, and that only if the address is no wildcard. -/
structure OnlyAdds (net net' : Ifaces) (o : Option Address) : Prop where
  links4 : ∀ addr, net'.links4 addr = net.links4 addr ∨
    net.links4 addr = none ∧ o = some (.ip4 addr) ∧ ¬ IsWildcard (.ip4 addr)
  links6 : ∀ addr, net'.links6 addr = net.links6 addr ∨
    net.links6 addr = none ∧ o = some (.ip6 addr) ∧ ¬ IsWildcard (.ip6 addr)

/-- A -1 has changed nothing, a 0 has added the link of the address and its routes. -/
def AsAsked (net net' : Ifaces) (o : Option Address) (ret : ℤ) : Prop :=
  (ret = -1 → Untouched net net') ∧ (ret = 0 → OnlyAdds net net' o)

/-! When a call keeps to that -/

/-- `pico_socket_bind` accepts: its checks pass, and the port has its `pico_sockport`. -/
def Accepts (w : PortTable.World) (s : PicoSocket) (c : BindCall) : Prop :=
  ∃ port ∈ PortTable.bindPort w s c, w.tables s.proto port ≠ none ∨ c.env.sockport = true

/-- The socket accepts the address once there is a link for it. A socket of the other family looks
    for what it reads among its own links. -/
def AcceptsLinked (w : World) (s : PicoSocket) (o : Address) (port : BitVec 16) (env : Env) : Prop :=
  Accepts w.ports s (bindCall env s o port
    (match o with
      | .ip4 _ => ! s.isIpv6 || linkFind w.net s.isIpv6 (readAddr s.isIpv6 env.junk o)
      | .ip6 _ => s.isIpv6 || linkFind w.net s.isIpv6 (readAddr s.isIpv6 env.junk o)))

/-- What becomes of a tentative link: whether another one replaces it when it is `gone`. -/
inductive Detection where
  | valid
  | tentative
  | gone (replaced : Bool)

/-- The link of the address after an event, and whether the device has been given another one;
    `links` are the links before the call. -/
def follow (links : Dad.Links) (addr : Addr) :
    Option PicoIpv6Link × Bool → StackEvent → Option PicoIpv6Link × Bool
  | (none, replaced), _ => (none, replaced)
  | (some l, replaced), .timer up =>
    if l.istentative = false ∨ up = false then (some l, replaced)
    else (some ⟨l.dupDetectRetrans ≠ 0, l.dupDetectRetrans - 1⟩, replaced)
  | (some l, replaced), .duplicate random env =>
    if l.istentative = false then (some l, replaced)
    else if isLinklocal addr = false ∨ env.ok = false then (none, replaced)
    else if random = addr then (some ⟨true, 1⟩, replaced)
    else (none, (links random).isNone)

/-- What the polls of the loop see, up to where it ends. -/
def detection (links : Dad.Links) (addr : Addr) :
    Option PicoIpv6Link × Bool → List Poll → Option Detection
  | (some ⟨false, _⟩, _), _ => some .valid
  | _, [] => none
  | (link, replaced), p :: ps =>
    if 3 ≤ p.waited then some (if link.isSome then .tentative else .gone replaced)
    else detection links addr (p.events.foldl (follow links addr) (link, replaced)) ps

/-- The route to the network is handed to another link, one with a global address. -/
def Substituted (net : Ifaces) (addr netmask : Addr) (env : LinkEnv) : Prop :=
  isGlobal (network addr netmask) = true ∧ isGlobal addr = false ∧
    net.routes6 (networkKey addr netmask) = none ∧ env.route = true ∧ env.globalGet ≠ none

/-- Taking the link away again leaves no trace. -/
def Restores (net : Ifaces) (addr netmask : Addr) (env : LinkEnv) : Prop :=
  ¬ Substituted net addr netmask env ∧ ∀ key r, net.routes6 key = some r → r.link ≠ addr

/-- A link is added for the address, with this netmask. -/
def Adds (net : Ifaces) (env : LinkEnv) : Address → Prop
  | .ip4 addr => env.ok = true ∧ net.links4 addr = none
  | .ip6 addr => env.ok = true ∧ net.links6 addr = none

/-- What `fd_pico_socket_bind` reads out of the text and the mask of the family. -/
def request (masks : Masks) (address : List Char) : Option (Address × Addr) :=
  (bindAddress address).bind fun o =>
    (match o with
      | .ip4 _ => picoStringToIpv4 masks.ipv4
      | .ip6 _ => (picoStringToIpv6 masks.ipv6).toOption).map fun netmask => (o, netmask)

/-- A link that is added stays only if the socket is bound to it. -/
def Proper (masks : Masks) (w : World) (fd : ℤ) (address : List Char) (port : BitVec 16) (env : Env) :
    Prop :=
  ∀ p ∈ w.ports.socketOf fd, ∀ q ∈ request masks address, Adds w.net env.link q.1 →
    match q.1 with
    | .ip4 _ => AcceptsLinked w p.2 q.1 port env ∧ ¬ IsWildcard q.1
    | .ip6 addr =>
      match detection w.net.links6 addr (some ⟨true, 1⟩, false) env.polls with
      | some .valid => AcceptsLinked w p.2 q.1 port env ∧ ¬ IsWildcard q.1
      | some .tentative => False
      | some (.gone replaced) => replaced = false ∧ Restores w.net addr q.2 env.link
      | none => True

/-! The stack's part -/

variable {w w' : World} {net net' : Ifaces} {addr netmask : Addr} {env : LinkEnv} {ret : ℤ}

theorem accepts_picoSocketBind {w : PortTable.World} {a : ℕ} {s : PicoSocket} {c : BindCall} :
    Accepts w s c ∧ (PortTable.picoSocketBind w a s c).2 = 0 ∨
      ¬ Accepts w s c ∧ (PortTable.picoSocketBind w a s c).2 = -1 := by
  rw [Accepts, PortTable.picoSocketBind]
  cases hport : PortTable.bindPort w s c with
  | none =>
    refine .inr ⟨?_, rfl⟩
    rintro ⟨port, hmem, -⟩
    cases hmem
  | some port =>
    simp only [PortTable.picoSocketAdd]
    split
    · rename_i hrefused
      refine .inr ⟨?_, rfl⟩
      rintro ⟨port', hmem, hsome | hmemory⟩
      · cases hmem
        exact hsome hrefused.1
      · rw [hmemory] at hrefused
        exact Bool.noConfusion hrefused.2
    · rename_i hrefused
      refine .inl ⟨⟨port, rfl, ?_⟩, rfl⟩
      rw [not_and_or, Bool.not_eq_false] at hrefused
      exact hrefused

/-! Nothing but the new link -/

theorem Untouched.refl (net : Ifaces) : Untouched net net := ⟨rfl, rfl, rfl, rfl, rfl⟩

theorem AsAsked.refl (net : Ifaces) (o : Option Address) (ret : ℤ) : AsAsked net net o ret :=
  ⟨fun _ => .refl net, fun _ => ⟨fun _ => .inl rfl, fun _ => .inl rfl⟩⟩

/-- A bound socket keeps to the new IPv4 link, a refused one leaves it behind. -/
theorem asAsked_ip4 {P : Prop} (hfree : net.links4 addr = none)
    (hlinks : net'.links4 = Function.update net.links4 addr (some netmask))
    (hother : net'.links6 = net.links6) (hret : P ∧ ret = 0 ∨ ¬ P ∧ ret = -1) :
    AsAsked net net' (some (.ip4 addr)) ret ↔ P ∧ ¬ IsWildcard (.ip4 addr) := by
  have hnew : net'.links4 addr = some netmask := by rw [hlinks, Function.update_self]
  rcases hret with ⟨hp, rfl⟩ | ⟨hp, rfl⟩
  · constructor
    · rintro ⟨-, hadds⟩
      rcases (hadds rfl).links4 addr with hsame | ⟨-, -, hwild⟩
      · rw [hnew, hfree] at hsame
        cases hsame
      · exact ⟨hp, hwild⟩
    · rintro ⟨-, hwild⟩
      refine ⟨fun h => absurd h (by decide), fun _ => ⟨?_, fun x => .inl (by rw [hother])⟩⟩
      intro x
      rcases eq_or_ne x addr with rfl | hne
      · exact .inr ⟨hfree, rfl, hwild⟩
      · exact .inl (by rw [hlinks, Function.update_of_ne hne])
  · constructor
    · rintro ⟨hkept, -⟩
      have hsame := (hkept rfl).links4
      rw [← hsame, hnew] at hfree
      cases hfree
    · rintro ⟨hyes, -⟩
      exact absurd hyes hp

/-- The same for IPv6, however much was counted down on the link. -/
theorem asAsked_ip6 {P : Prop} {l : PicoIpv6Link} (hfree : net.links6 addr = none)
    (hlinks : net'.links6 = Function.update net.links6 addr (some l))
    (hother : net'.links4 = net.links4) (hret : P ∧ ret = 0 ∨ ¬ P ∧ ret = -1) :
    AsAsked net net' (some (.ip6 addr)) ret ↔ P ∧ ¬ IsWildcard (.ip6 addr) := by
  have hnew : net'.links6 addr = some l := by rw [hlinks, Function.update_self]
  rcases hret with ⟨hp, rfl⟩ | ⟨hp, rfl⟩
  · constructor
    · rintro ⟨-, hadds⟩
      rcases (hadds rfl).links6 addr with hsame | ⟨-, -, hwild⟩
      · rw [hnew, hfree] at hsame
        cases hsame
      · exact ⟨hp, hwild⟩
    · rintro ⟨-, hwild⟩
      refine ⟨fun h => absurd h (by decide), fun _ => ⟨fun x => .inl (by rw [hother]), ?_⟩⟩
      intro x
      rcases eq_or_ne x addr with rfl | hne
      · exact .inr ⟨hfree, rfl, hwild⟩
      · exact .inl (by rw [hlinks, Function.update_of_ne hne])
  · constructor
    · rintro ⟨hkept, -⟩
      have hsame := (hkept rfl).links6
      rw [← hsame, hnew] at hfree
      cases hfree
    · rintro ⟨hyes, -⟩
      exact absurd hyes hp

/-! Adding a link -/

theorem picoIpv4LinkAdd_eq_none :
    picoIpv4LinkAdd net addr netmask env = none ↔ ¬ Adds net env (.ip4 addr) := by
  rw [picoIpv4LinkAdd, Adds, not_and_or, Bool.not_eq_true, ← ne_eq, ← Option.isSome_iff_ne_none]
  split
  · rename_i hrefused
    exact iff_of_true rfl hrefused
  · rename_i hrefused
    exact iff_of_false (Option.some_ne_none _) hrefused

theorem picoIpv4LinkAdd_eq_some (h : picoIpv4LinkAdd net addr netmask env = some net') :
    Adds net env (.ip4 addr) ∧ net'.links4 = Function.update net.links4 addr (some netmask) ∧
      net'.links6 = net.links6 := by
  have hadds : Adds net env (.ip4 addr) := by
    by_contra hno
    rw [picoIpv4LinkAdd_eq_none.mpr hno] at h
    cases h
  rw [picoIpv4LinkAdd] at h
  split at h
  · cases h
  · cases h
    exact ⟨hadds, rfl, rfl⟩

/-- The routes after `pico_ipv6_link_add`. -/
def linkRoutes (net : Ifaces) (addr netmask : Addr) (env : LinkEnv) : Routes :=
  let routes := if net.mcast6 = none then
      picoIpv6RouteAdd net.routes6 mcastKey6 addr env.mcastRoute env.globalGet
    else net.routes6
  picoIpv6RouteAdd (picoIpv6RouteAdd routes (networkKey addr netmask) addr env.route env.globalGet)
    mcastKey6 addr env.mcastRoute2 env.globalGet

theorem picoIpv6LinkAdd_eq_none :
    picoIpv6LinkAdd net addr netmask env = none ↔ ¬ Adds net env (.ip6 addr) := by
  rw [picoIpv6LinkAdd, Option.map_eq_none_iff, Dad.picoIpv6LinkAdd, Adds, not_and_or,
    Bool.not_eq_true, ← ne_eq, ← Option.isSome_iff_ne_none]
  split
  · rename_i hrefused
    exact iff_of_true rfl hrefused.symm
  · rename_i hrefused
    exact iff_of_false (Option.some_ne_none _) fun h => hrefused h.symm

theorem picoIpv6LinkAdd_eq_some (h : picoIpv6LinkAdd net addr netmask env = some net') :
    Adds net env (.ip6 addr) ∧ net' = { net with
      links6 := Function.update net.links6 addr (some ⟨true, 1⟩)
      routes6 := linkRoutes net addr netmask env
      mcast6 := some (net.mcast6.getD addr) } := by
  have hadds : Adds net env (.ip6 addr) := by
    by_contra hno
    rw [picoIpv6LinkAdd_eq_none.mpr hno] at h
    cases h
  obtain ⟨links, hlinks, rfl⟩ := Option.map_eq_some_iff.mp h
  rw [Dad.picoIpv6LinkAdd] at hlinks
  split at hlinks
  · cases hlinks
  · cases hlinks
    exact ⟨hadds, rfl⟩

/-! Taking the routes away again -/

variable {routes : Routes} {key : RouteKey} {ok : Bool} {g : Option Global}

theorem cleanup_cleanup : picoIpv6CleanupRoutes (picoIpv6CleanupRoutes routes addr) addr =
    picoIpv6CleanupRoutes routes addr := by
  funext key
  rw [picoIpv6CleanupRoutes, picoIpv6CleanupRoutes, Option.filter_filter]
  simp

/-- A route that is added over the link goes with the link, unless another link got it. -/
theorem cleanup_picoIpv6RouteAdd
    (h : ¬ (isGlobal key.dest = true ∧ isGlobal addr = false ∧ routes key = none ∧ ok = true ∧ g ≠ none)) :
    picoIpv6CleanupRoutes (picoIpv6RouteAdd routes key addr ok g) addr =
      picoIpv6CleanupRoutes routes addr := by
  rw [picoIpv6RouteAdd]
  split
  · rfl
  · rename_i hnew
    rw [not_or, Option.not_isSome_iff_eq_none, Bool.not_eq_false] at hnew
    by_cases hglobal : isGlobal key.dest ∧ isGlobal addr = false
    · have hnone : g = none := by
        by_contra hsome
        exact h ⟨hglobal.1, hglobal.2, hnew.1, hnew.2, hsome⟩
      simp only [if_pos hglobal, hnone, Option.map_none]
    · simp only [if_neg hglobal]
      funext key'
      rcases eq_or_ne key' key with rfl | hne
      · rw [picoIpv6CleanupRoutes, picoIpv6CleanupRoutes, Function.update_self, hnew.1]
        simp
      · rw [picoIpv6CleanupRoutes, picoIpv6CleanupRoutes, Function.update_of_ne hne]

theorem picoIpv6RouteAdd_of_ne {key' : RouteKey} (h : key' ≠ key) :
    picoIpv6RouteAdd routes key addr ok g key' = routes key' := by
  rw [picoIpv6RouteAdd]
  split
  · rfl
  · dsimp only
    generalize (if isGlobal key.dest = true ∧ isGlobal addr = false then g.map Global.addr
      else some addr) = link
    cases link with
    | none => rfl
    | some link => exact Function.update_of_ne h ..

theorem cleanup_mcast : picoIpv6CleanupRoutes (picoIpv6RouteAdd routes mcastKey6 addr ok g) addr =
    picoIpv6CleanupRoutes routes addr :=
  cleanup_picoIpv6RouteAdd fun h => absurd h.1 (by decide)

theorem networkKey_ne_mcastKey6 (hglobal : isGlobal (network addr netmask) = true) :
    networkKey addr netmask ≠ mcastKey6 := by
  intro heq
  have hdest : network addr netmask = mcastKey6.dest := congrArg RouteKey.dest heq
  rw [hdest] at hglobal
  exact absurd hglobal (by decide)

/-- The routes when the first one to the multicast addresses is in place. -/
theorem mcastRoutes_networkKey (hglobal : isGlobal (network addr netmask) = true) :
    (if net.mcast6 = none then picoIpv6RouteAdd net.routes6 mcastKey6 addr ok g else net.routes6)
      (networkKey addr netmask) = net.routes6 (networkKey addr netmask) := by
  split
  · exact picoIpv6RouteAdd_of_ne (networkKey_ne_mcastKey6 hglobal)
  · rfl

theorem cleanup_linkRoutes (h : ¬ Substituted net addr netmask env) :
    picoIpv6CleanupRoutes (linkRoutes net addr netmask env) addr =
      picoIpv6CleanupRoutes net.routes6 addr := by
  rw [linkRoutes]
  simp only [cleanup_mcast]
  rw [cleanup_picoIpv6RouteAdd]
  · split
    · exact cleanup_mcast
    · rfl
  · rintro ⟨hdest, hlink, hnone, hok, hget⟩
    have hglobal : isGlobal (network addr netmask) = true := hdest
    rw [mcastRoutes_networkKey hglobal] at hnone
    exact h ⟨hglobal, hlink, hnone, hok, hget⟩

/-- A route that another link got stays. -/
theorem linkRoutes_of_substituted (h : Substituted net addr netmask env) :
    ∃ r, linkRoutes net addr netmask env (networkKey addr netmask) = some r ∧ r.link ≠ addr := by
  obtain ⟨hglobal, hlink, hnone, hok, hget⟩ := h
  obtain ⟨g, hg⟩ := Option.ne_none_iff_exists'.mp hget
  refine ⟨⟨List.replicate 16 0, g.addr⟩, ?_, ?_⟩
  · rw [linkRoutes]
    simp only [picoIpv6RouteAdd_of_ne (networkKey_ne_mcastKey6 hglobal)]
    rw [picoIpv6RouteAdd, mcastRoutes_networkKey hglobal, hnone, hok, hg]
    simp only [networkKey, Option.isSome_none, Bool.false_eq_true, Bool.true_eq_false, or_self,
      if_false, hglobal, hlink, and_self, if_true, Option.map_some, Function.update_self]
  · rintro rfl
    rw [g.global] at hlink
    cases hlink

/-- RESTORE: what is left of the routes when the link is gone. -/
theorem cleanup_linkRoutes_eq_iff : picoIpv6CleanupRoutes (linkRoutes net addr netmask env) addr =
    net.routes6 ↔ Restores net addr netmask env := by
  by_cases hsub : Substituted net addr netmask env
  · refine iff_of_false ?_ fun h => h.1 hsub
    intro heq
    obtain ⟨r, hr, hne⟩ := linkRoutes_of_substituted hsub
    have hkept := congrFun heq (networkKey addr netmask)
    rw [hsub.2.2.1, picoIpv6CleanupRoutes, hr, Option.filter_some, if_pos (decide_eq_true hne)] at hkept
    cases hkept
  · rw [cleanup_linkRoutes hsub]
    constructor
    · intro heq
      refine ⟨hsub, ?_⟩
      rintro key r hr rfl
      have hkept := congrFun heq key
      rw [picoIpv6CleanupRoutes, hr, Option.filter_some, if_neg (by simp)] at hkept
      cases hkept
    · rintro ⟨-, hothers⟩
      funext key
      rw [picoIpv6CleanupRoutes]
      cases hr : net.routes6 key with
      | none => rfl
      | some r => rw [Option.filter_some, if_pos (decide_eq_true (hothers key r hr))]

/-! What becomes of the link -/

/-- The interfaces `cur` while a call waits: `net` are those before the call, `net₁` those with the
    new link. -/
structure Waiting (net net₁ : Ifaces) (addr : Addr) (t : Option PicoIpv6Link × Bool) (cur : Ifaces) :
    Prop where
  link : cur.links6 addr = t.1
  links4 : cur.links4 = net.links4
  routes4 : cur.routes4 = net₁.routes4
  bcast4 : cur.bcast4 = net₁.bcast4
  links6 : t.2 = false → ∀ x, x ≠ addr → cur.links6 x = net.links6 x
  routes6 : t.2 = false →
    picoIpv6CleanupRoutes cur.routes6 addr = picoIpv6CleanupRoutes net₁.routes6 addr
  gone : t.2 = false → t.1 = none → picoIpv6CleanupRoutes cur.routes6 addr = cur.routes6
  replaced : t.2 = true → t.1 = none ∧ ∃ x, net.links6 x = none ∧ cur.links6 x ≠ none

variable {net₁ cur : Ifaces} {t : Option PicoIpv6Link × Bool} {replaced found : Bool}

theorem Waiting.of_add (h : picoIpv6LinkAdd net addr netmask env = some net₁) :
    Waiting net net₁ addr (some ⟨true, 1⟩, false) net₁ := by
  obtain ⟨-, rfl⟩ := picoIpv6LinkAdd_eq_some h
  exact ⟨Function.update_self .., rfl, rfl, rfl, fun _ x hne => Function.update_of_ne hne ..,
    fun _ => rfl, nofun, nofun⟩

/-- A tentative link that is still there has not been replaced. -/
theorem Waiting.not_replaced {l : PicoIpv6Link} (h : Waiting net net₁ addr (some l, replaced) cur) :
    replaced = false := by
  cases replaced with
  | false => rfl
  | true => cases (h.replaced rfl).1

theorem network_of_linklocal (h : isLinklocal addr = true) :
    isGlobal (network addr netmask64) = false := by
  cases addr with
  | nil => exact absurd h (by decide)
  | cons x xs =>
    simp only [isLinklocal, List.getD_cons_zero, Bool.decide_and, Bool.and_eq_true,
      decide_eq_true_eq] at h
    obtain ⟨rfl, -⟩ := h
    change decide ((0xfe &&& 0xff : UInt8) >>> 5 = 1) = false
    decide

/-- The device gives the address up, and for a link-local one it takes another. -/
theorem Waiting.duplicate {l : PicoIpv6Link} (h : Waiting net net₁ addr (some l, false) cur)
    (hl : l.istentative = true) (random : Addr) (env : LinkEnv) :
    Waiting net net₁ addr (follow net.links6 addr (some l, false) (.duplicate random env))
      (ipv6DuplicateDetected cur addr random env) := by
  have hdel : Waiting net net₁ addr (none, false) (picoIpv6LinkDel cur addr) := by
    refine ⟨Function.update_self .., h.links4, h.routes4, h.bcast4, ?_, ?_, ?_, nofun⟩
    · intro _ x hne
      exact (Function.update_of_ne hne ..).trans (h.links6 rfl x hne)
    · exact fun _ => cleanup_cleanup.trans (h.routes6 rfl)
    · exact fun _ _ => cleanup_cleanup
  rw [follow, if_neg (by rw [hl]; decide), ipv6DuplicateDetected]
  cases hlocal : isLinklocal addr with
  | false =>
    rw [if_pos (.inl rfl)]
    exact hdel
  | true =>
    cases hadd : picoIpv6LinkAdd (picoIpv6LinkDel cur addr) random netmask64 env with
    | none =>
      have hrefused := picoIpv6LinkAdd_eq_none.mp hadd
      rw [Adds, not_and_or, Bool.not_eq_true] at hrefused
      rw [if_pos rfl, Option.getD_none]
      split
      · exact hdel
      · rename_i hok
        rw [not_or] at hok
        have hthere := hrefused.resolve_left hok.2
        split
        · rename_i hsame
          rw [hsame] at hthere
          exact absurd hdel.link hthere
        · rename_i hne
          rw [hdel.links6 rfl random hne] at hthere
          rw [Option.isNone_eq_false_iff.mpr (Option.isSome_iff_ne_none.mpr hthere)]
          exact hdel
    | some new =>
      obtain ⟨⟨hok, hfree⟩, rfl⟩ := picoIpv6LinkAdd_eq_some hadd
      rw [if_pos rfl, Option.getD_some, if_neg (by rw [hok]; decide)]
      split
      · rename_i hsame
        subst hsame
        have hkept : ¬ Substituted (picoIpv6LinkDel cur random) random netmask64 env := by
          intro hsub
          rw [Substituted, network_of_linklocal hlocal] at hsub
          exact Bool.false_ne_true hsub.1
        refine ⟨Function.update_self .., h.links4, h.routes4, h.bcast4, ?_, ?_, nofun, nofun⟩
        · intro _ x hne
          exact (Function.update_of_ne hne ..).trans (hdel.links6 rfl x hne)
        · exact fun _ => (cleanup_linkRoutes hkept).trans (hdel.routes6 rfl)
      · rename_i hne
        have hbefore : net.links6 random = none := (hdel.links6 rfl random hne).symm.trans hfree
        rw [hbefore]
        refine ⟨?_, h.links4, h.routes4, h.bcast4, nofun, nofun, nofun, ?_⟩
        · exact (Function.update_of_ne (Ne.symm hne) ..).trans hdel.link
        · refine fun _ => ⟨rfl, random, hbefore, ?_⟩
          simp only [Function.update_self, ne_eq, reduceCtorEq, not_false_eq_true]

theorem Waiting.event (h : Waiting net net₁ addr t cur) (e : StackEvent) :
    Waiting net net₁ addr (follow net.links6 addr t e) (stackEvent addr cur e) := by
  obtain ⟨link, replaced⟩ := t
  have hlink := h.link
  simp only at hlink
  cases link with
  | none =>
    cases e with
    | timer up =>
      rw [follow, stackEvent, Dad.picoIpv6NdDad, hlink]
      exact h
    | duplicate random env =>
      rw [follow, stackEvent, hlink]
      exact h
  | some l =>
    obtain rfl := h.not_replaced
    cases e with
    | timer up =>
      rw [follow, stackEvent, Dad.picoIpv6NdDad, hlink]
      simp only
      split
      · exact h
      · refine ⟨Function.update_self .., h.links4, h.routes4, h.bcast4, ?_, h.routes6, by simp, by simp⟩
        intro _ x hne
        exact (Function.update_of_ne hne ..).trans (h.links6 rfl x hne)
    | duplicate random env =>
      rw [stackEvent, hlink]
      simp only
      split
      · rename_i htentative
        exact h.duplicate htentative random env
      · rename_i hvalid
        rw [Bool.not_eq_true] at hvalid
        rw [follow, if_pos hvalid]
        exact h

theorem Waiting.events (h : Waiting net net₁ addr t cur) (es : List StackEvent) :
    Waiting net net₁ addr (es.foldl (follow net.links6 addr) t) (es.foldl (stackEvent addr) cur) := by
  induction es generalizing t cur with
  | nil => exact h
  | cons e es ih => exact ih (h.event e)

/-- How a wait ends. -/
def Ended (net net₁ : Ifaces) (addr : Addr) (found : Bool) (cur : Ifaces) : Detection → Prop
  | .valid => found = true ∧ ∃ n, Waiting net net₁ addr (some ⟨false, n⟩, false) cur
  | .tentative => found = false ∧ ∃ n, Waiting net net₁ addr (some ⟨true, n⟩, false) cur
  | .gone replaced => found = false ∧ Waiting net net₁ addr (none, replaced) cur

theorem waitForDad_of_not_find {p : Poll} {ps : List Poll}
    (h : picoIpv6LinkFind cur.links6 addr = false) :
    waitForDad addr cur (p :: ps) = if 3 ≤ p.waited then some (cur, false)
      else waitForDad addr (p.events.foldl (stackEvent addr) cur) ps := by
  rw [waitForDad, if_neg (by rw [h]; decide)]

theorem detection_cons {links : Dad.Links} {link : Option PicoIpv6Link} {p : Poll} {ps : List Poll}
    (h : ∀ n, link ≠ some ⟨false, n⟩) :
    detection links addr (link, replaced) (p :: ps) =
      if 3 ≤ p.waited then some (if link.isSome then .tentative else .gone replaced)
      else detection links addr (p.events.foldl (follow links addr) (link, replaced)) ps := by
  rw [detection]
  exact h

/-- WAIT: the loop ends as the detection does. -/
theorem waitForDad_ended {polls : List Poll} (h : Waiting net net₁ addr t cur)
    (hwait : waitForDad addr cur polls = some (net', found)) :
    ∃ d, detection net.links6 addr t polls = some d ∧ Ended net net₁ addr found net' d := by
  induction polls generalizing t cur with
  | nil =>
    rw [waitForDad] at hwait
    obtain ⟨hfind, hwait⟩ | ⟨-, hwait⟩ := ite_eq_iff.mp hwait
    · cases hwait
      rw [picoIpv6LinkFind, h.link] at hfind
      obtain ⟨_ | ⟨_ | _, n⟩, replaced⟩ := t
      · cases hfind
      · obtain rfl := h.not_replaced
        exact ⟨.valid, rfl, rfl, n, h⟩
      · cases hfind
    · cases hwait
  | cons p ps ih =>
    obtain ⟨_ | ⟨_ | _, n⟩, replaced⟩ := t
    · have hfind : picoIpv6LinkFind cur.links6 addr = false := by rw [picoIpv6LinkFind, h.link]
      rw [waitForDad_of_not_find hfind] at hwait
      rw [detection_cons fun _ h => by cases h]
      split at hwait
      · cases hwait
        rename_i hover
        exact ⟨.gone replaced, if_pos hover, rfl, h⟩
      · rename_i hleft
        rw [if_neg hleft]
        exact ih (h.events p.events) hwait
    · have hfind : picoIpv6LinkFind cur.links6 addr = true := by
        rw [picoIpv6LinkFind, h.link]
        rfl
      rw [waitForDad, if_pos hfind] at hwait
      cases hwait
      obtain rfl := h.not_replaced
      exact ⟨.valid, rfl, rfl, n, h⟩
    · have hfind : picoIpv6LinkFind cur.links6 addr = false := by
        rw [picoIpv6LinkFind, h.link]
        rfl
      rw [waitForDad_of_not_find hfind] at hwait
      rw [detection_cons fun _ h => by cases h]
      split at hwait
      · cases hwait
        rename_i hover
        obtain rfl := h.not_replaced
        exact ⟨.tentative, if_pos hover, rfl, n, h⟩
      · rename_i hleft
        rw [if_neg hleft]
        exact ih (h.events p.events) hwait

/-! The call -/

variable {masks : Masks} {fd : ℤ} {address : List Char} {port : BitVec 16} {e : Env} {a : ℕ}
  {s : PicoSocket}

theorem picoSocketBind_net {o : Address} : (picoSocketBind w net a s o port e).1.net = net := rfl

/-- The socket takes the new IPv4 link, or the call returns -1. -/
theorem acceptsLinked_ip4 (a : ℕ) (s : PicoSocket) (port : BitVec 16) (e : Env)
    (hlinks : net.links4 = Function.update w.net.links4 addr (some netmask))
    (hother : net.links6 = w.net.links6) :
    AcceptsLinked w s (.ip4 addr) port e ∧ (picoSocketBind w net a s (.ip4 addr) port e).2 = 0 ∨
      ¬ AcceptsLinked w s (.ip4 addr) port e ∧
        (picoSocketBind w net a s (.ip4 addr) port e).2 = -1 := by
  have hlinked : linkFind net s.isIpv6 (readAddr s.isIpv6 e.junk (.ip4 addr)) =
      (! s.isIpv6 || linkFind w.net s.isIpv6 (readAddr s.isIpv6 e.junk (.ip4 addr))) := by
    cases s.isIpv6 with
    | false => simp [linkFind, readAddr, hlinks]
    | true => simp [linkFind, hother]
  rw [AcceptsLinked, ← hlinked]
  exact accepts_picoSocketBind

theorem acceptsLinked_ip6 (a : ℕ) (s : PicoSocket) (port : BitVec 16) (e : Env)
    (hfind : picoIpv6LinkFind net.links6 addr = true) (hother : net.links4 = w.net.links4) :
    AcceptsLinked w s (.ip6 addr) port e ∧ (picoSocketBind w net a s (.ip6 addr) port e).2 = 0 ∨
      ¬ AcceptsLinked w s (.ip6 addr) port e ∧
        (picoSocketBind w net a s (.ip6 addr) port e).2 = -1 := by
  have hlinked : linkFind net s.isIpv6 (readAddr s.isIpv6 e.junk (.ip6 addr)) =
      (s.isIpv6 || linkFind w.net s.isIpv6 (readAddr s.isIpv6 e.junk (.ip6 addr))) := by
    cases s.isIpv6 with
    | false => simp [linkFind, hother]
    | true => simp [linkFind, readAddr, hfind]
  rw [AcceptsLinked, ← hlinked]
  exact accepts_picoSocketBind

/-- The IPv6 branch, when a link has been added. -/
theorem asAsked_ended {d : Detection} (hfree : w.net.links6 addr = none)
    (hadd : picoIpv6LinkAdd w.net addr netmask e.link = some net₁)
    (h : Ended w.net net₁ addr found net d)
    (hw : (if found then picoSocketBind w net a s (.ip6 addr) port e else ({ w with net }, -1)) =
      (w', ret)) :
    AsAsked w.net w'.net (some (.ip6 addr)) ret ↔
      match d with
      | .valid => AcceptsLinked w s (.ip6 addr) port e ∧ ¬ IsWildcard (.ip6 addr)
      | .tentative => False
      | .gone replaced => replaced = false ∧ Restores w.net addr netmask e.link := by
  obtain ⟨-, hnet₁⟩ := picoIpv6LinkAdd_eq_some hadd
  cases d with
  | valid =>
    obtain ⟨rfl, n, hwait⟩ := h
    rw [if_pos rfl] at hw
    have hlinks : net.links6 = Function.update w.net.links6 addr (some ⟨false, n⟩) := by
      funext x
      rcases eq_or_ne x addr with rfl | hne
      · rw [hwait.link, Function.update_self]
      · rw [hwait.links6 rfl x hne, Function.update_of_ne hne]
    have hfind : picoIpv6LinkFind net.links6 addr = true := by
      rw [picoIpv6LinkFind, hwait.link]
      rfl
    have hret := acceptsLinked_ip6 a s port e hfind hwait.links4
    rw [hw] at hret
    have hnet : w'.net = net := congrArg (fun r : World × ℤ => r.1.net) hw.symm
    rw [hnet]
    exact asAsked_ip6 hfree hlinks hwait.links4 hret
  | tentative =>
    obtain ⟨rfl, n, hwait⟩ := h
    rw [if_neg Bool.false_ne_true] at hw
    cases hw
    refine iff_of_false ?_ not_false
    rintro ⟨hkept, -⟩
    have hlink := hwait.link
    rw [(hkept rfl).links6, hfree] at hlink
    cases hlink
  | gone replaced =>
    obtain ⟨rfl, hwait⟩ := h
    rw [if_neg Bool.false_ne_true] at hw
    cases hw
    cases replaced with
    | true =>
      refine iff_of_false ?_ fun hno => Bool.noConfusion hno.1
      rintro ⟨hkept, -⟩
      obtain ⟨-, x, hbefore, hafter⟩ := hwait.replaced rfl
      rw [(hkept rfl).links6] at hafter
      exact hafter hbefore
    | false =>
      have hroutes : net.routes6 =
          picoIpv6CleanupRoutes (linkRoutes w.net addr netmask e.link) addr := by
        rw [← hwait.gone rfl rfl, hwait.routes6 rfl, hnet₁]
      rw [← cleanup_linkRoutes_eq_iff, ← hroutes]
      constructor
      · rintro ⟨hkept, -⟩
        exact ⟨rfl, (hkept rfl).routes6⟩
      · rintro ⟨-, hsame⟩
        refine ⟨fun _ => ⟨hwait.links4, ?_, ?_, ?_, hsame⟩, fun hno => absurd hno (by decide)⟩
        · rw [hwait.routes4, hnet₁]
        · rw [hwait.bcast4, hnet₁]
        · funext x
          rcases eq_or_ne x addr with rfl | hne
          · rw [hwait.link, hfree]
          · exact hwait.links6 rfl x hne

theorem fdPicoSocketBind_ipv4 (hsock : w.ports.socketOf fd = some (a, s)) (hv4 : isIpv4 address)
    (h : fdPicoSocketBind masks w fd address port e = some (w', ret)) :
    (w'.net = w.net ∧ ∀ q ∈ request masks address, ¬ Adds w.net e.link q.1) ∨
      ∃ ip netmask net, bindAddress address = some (.ip4 ip) ∧
        request masks address = some (.ip4 ip, netmask) ∧
        picoIpv4LinkAdd w.net ip netmask e.link = some net ∧
        picoSocketBind w net a s (.ip4 ip) port e = (w', ret) := by
  rw [fdPicoSocketBind, hsock] at h
  simp only [if_pos hv4] at h
  rw [request, bindAddress, if_pos hv4]
  cases hip : picoStringToIpv4 address with
  | none =>
    rw [hip] at h
    cases h
    exact .inl ⟨rfl, by simp⟩
  | some ip =>
    cases hmask : picoStringToIpv4 masks.ipv4 with
    | none =>
      rw [hip, hmask] at h
      cases h
      exact .inl ⟨rfl, by simp⟩
    | some netmask =>
      rw [hip, hmask] at h
      simp only [Option.map_some, Option.bind_some, Option.mem_def, Option.some.injEq,
        forall_eq'] at h ⊢
      by_cases hthere : (w.net.links4 ip).isSome
      · rw [if_pos hthere] at h
        simp only [Option.some.injEq] at h
        refine .inl ⟨(congrArg (fun r : World × ℤ => r.1.net) h).symm, ?_⟩
        rintro ⟨-, hfree⟩
        rw [hfree] at hthere
        cases hthere
      · rw [if_neg hthere] at h
        cases hadd : picoIpv4LinkAdd w.net ip netmask e.link with
        | none =>
          rw [hadd] at h
          cases h
          exact .inl ⟨rfl, picoIpv4LinkAdd_eq_none.mp hadd⟩
        | some net =>
          rw [hadd] at h
          simp only [Option.some.injEq] at h
          exact .inr ⟨ip, netmask, net, rfl, rfl, hadd, h⟩

theorem fdPicoSocketBind_ipv6 (hsock : w.ports.socketOf fd = some (a, s)) (hv4 : ¬ isIpv4 address)
    (hv6 : isIpv6 address) (h : fdPicoSocketBind masks w fd address port e = some (w', ret)) :
    (w'.net = w.net ∧ ∀ q ∈ request masks address, ¬ Adds w.net e.link q.1) ∨
      ∃ ip netmask net₁ net found, bindAddress address = some (.ip6 ip) ∧
        request masks address = some (.ip6 ip, netmask) ∧
        picoIpv6LinkAdd w.net ip netmask e.link = some net₁ ∧
        waitForDad ip net₁ e.polls = some (net, found) ∧
        (if found then picoSocketBind w net a s (.ip6 ip) port e else ({ w with net }, -1)) =
          (w', ret) := by
  rw [fdPicoSocketBind, hsock] at h
  simp only [if_neg hv4, if_pos hv6] at h
  rw [request, bindAddress, if_neg hv4, if_pos hv6]
  rcases hip : picoStringToIpv6 address with (_ | _) | ip
  · rw [hip] at h
    cases h
    exact .inl ⟨rfl, by simp [Except.toOption]⟩
  · rw [hip] at h
    cases h
  · rcases hmask : picoStringToIpv6 masks.ipv6 with (_ | _) | netmask
    · rw [hip, hmask] at h
      cases h
      exact .inl ⟨rfl, by simp [Except.toOption]⟩
    · rw [hip, hmask] at h
      cases h
    · rw [hip, hmask] at h
      simp only [Except.toOption, Option.map_some, Option.bind_some, Option.mem_def,
        Option.some.injEq, forall_eq'] at h ⊢
      by_cases hthere : picoIpv6LinkFind w.net.links6 ip
      · rw [if_pos hthere] at h
        have hwait : waitForDad ip w.net e.polls = some (w.net, true) := by
          cases e.polls <;> rw [waitForDad, if_pos hthere]
        simp only [hwait, Option.map_some, if_true, Option.some.injEq] at h
        refine .inl ⟨(congrArg (fun r : World × ℤ => r.1.net) h).symm, ?_⟩
        rintro ⟨-, hfree⟩
        rw [picoIpv6LinkFind, hfree] at hthere
        cases hthere
      · rw [if_neg hthere] at h
        cases hadd : picoIpv6LinkAdd w.net ip netmask e.link with
        | none =>
          rw [hadd] at h
          cases h
          exact .inl ⟨rfl, picoIpv6LinkAdd_eq_none.mp hadd⟩
        | some net₁ =>
          rw [hadd] at h
          obtain ⟨⟨net, found⟩, hwait, h⟩ := Option.map_eq_some_iff.mp h
          exact .inr ⟨ip, netmask, net₁, net, found, rfl, rfl, hadd, hwait, h⟩

/-- The call either leaves the interfaces as they are, or goes on with a new link. -/
theorem fdPicoSocketBind_cases (hsock : w.ports.socketOf fd = some (a, s))
    (h : fdPicoSocketBind masks w fd address port e = some (w', ret)) :
    (w'.net = w.net ∧ ∀ q ∈ request masks address, ¬ Adds w.net e.link q.1) ∨
      (∃ ip netmask net, bindAddress address = some (.ip4 ip) ∧
        request masks address = some (.ip4 ip, netmask) ∧
        picoIpv4LinkAdd w.net ip netmask e.link = some net ∧
        picoSocketBind w net a s (.ip4 ip) port e = (w', ret)) ∨
      ∃ ip netmask net₁ net found, bindAddress address = some (.ip6 ip) ∧
        request masks address = some (.ip6 ip, netmask) ∧
        picoIpv6LinkAdd w.net ip netmask e.link = some net₁ ∧
        waitForDad ip net₁ e.polls = some (net, found) ∧
        (if found then picoSocketBind w net a s (.ip6 ip) port e else ({ w with net }, -1)) =
          (w', ret) := by
  by_cases hv4 : isIpv4 address
  · rcases fdPicoSocketBind_ipv4 hsock hv4 h with hkept | hadd
    · exact .inl hkept
    · exact .inr (.inl hadd)
  · by_cases hv6 : isIpv6 address
    · rcases fdPicoSocketBind_ipv6 hsock hv4 hv6 h with hkept | hadd
      · exact .inl hkept
      · exact .inr (.inr hadd)
    · rw [fdPicoSocketBind, hsock] at h
      simp only [if_neg hv4, if_neg hv6] at h
      cases h
      rw [request, bindAddress, if_neg hv4, if_neg hv6]
      exact .inl ⟨rfl, by simp⟩

/-- ASKED: a `bind()` changes the interfaces only as asked exactly if it adds no link, or what it adds
    is bound to or taken away again. -/
theorem bind_as_asked (h : fdPicoSocketBind masks w fd address port e = some (w', ret)) :
    AsAsked w.net w'.net (bindAddress address) ret ↔ Proper masks w fd address port e := by
  cases hsock : w.ports.socketOf fd with
  | none =>
    rw [fdPicoSocketBind, hsock] at h
    cases h
    refine iff_of_true (.refl ..) ?_
    rintro p hp
    rw [hsock] at hp
    cases hp
  | some p =>
    obtain ⟨a, s⟩ := p
    rcases fdPicoSocketBind_cases hsock h with ⟨hsame, hno⟩ |
      ⟨ip, netmask, net, haddress, hrequest, hadd, hbind⟩ |
      ⟨ip, netmask, net₁, net, found, haddress, hrequest, hadd, hwait, hbind⟩
    · rw [hsame]
      exact iff_of_true (.refl ..) fun p hp q hq hadds => absurd hadds (hno q hq)
    · obtain ⟨hadds, hlinks, hother⟩ := picoIpv4LinkAdd_eq_some hadd
      have hret := acceptsLinked_ip4 a s port e hlinks hother
      rw [hbind] at hret
      have hnet : w'.net = net := congrArg (fun r : World × ℤ => r.1.net) hbind.symm
      rw [haddress, hnet, asAsked_ip4 hadds.2 hlinks hother hret]
      simp only [Proper, hsock, hrequest, Option.mem_def, Option.some.injEq, forall_eq', hadds,
        forall_const]
    · obtain ⟨hadds, -⟩ := picoIpv6LinkAdd_eq_some hadd
      obtain ⟨d, hdetect, hended⟩ := waitForDad_ended (.of_add hadd) hwait
      rw [haddress, asAsked_ended hadds.2 hadd hended hbind]
      simp only [Proper, hsock, hrequest, Option.mem_def, Option.some.injEq, forall_eq', hadds,
        forall_const, hdetect]
      cases d <;> rfl

/-- One IPv6 UDP socket, and no link. -/
def bare : World :=
  ⟨{ PortTable.begin.put 0 (PortTable.picoSocketOpen true .udp) with fds := [(3, 0)] },
    ⟨fun _ => none, fun _ => none, none, none, fun _ => none, fun _ => none, none⟩⟩

/-- The address becomes valid at the second turn of the timer. -/
def prompt : Env :=
  ⟨⟨true, true, true, true, none⟩, [⟨0, [.timer true]⟩, ⟨1, [.timer true]⟩], [], 0, PortTable.plenty⟩

/-- `2001::a` -/
def globalText : List Char := ['2', '0', '0', '1', ':', ':', 'a']

theorem prompt_runs : (fdPicoSocketBind Family.defaultMasks bare 3 globalText 0x5000 prompt).isSome := by
  decide

theorem proper_prompt : Proper Family.defaultMasks bare 3 globalText 0x5000 prompt := by
  have hrequest : request Family.defaultMasks globalText =
      some (.ip6 Dad.global, List.replicate 16 0) := by decide
  have hsock : bare.ports.socketOf 3 = some (0, PortTable.picoSocketOpen true .udp) := by decide
  intro p hp q hq _
  rw [hsock] at hp
  rw [hrequest] at hq
  cases hp
  cases hq
  exact ⟨⟨0x5000, by decide, .inr rfl⟩, by unfold IsWildcard; decide⟩

theorem bind_as_asked_prompt : AsAsked bare.net (Option.get _ prompt_runs).1.net
    (bindAddress globalText) (Option.get _ prompt_runs).2 :=
  (bind_as_asked (Option.some_get prompt_runs).symm).mpr proper_prompt

/-- `10.0.0.2` -/
def ipv4Text : List Char := ['1', '0', '.', '0', '.', '0', '.', '2']

theorem mismatch_runs : (fdPicoSocketBind Family.defaultMasks bare 3 ipv4Text 0x5000 prompt).isSome := by
  decide

/-- An IPv4 address is bound on the IPv6 socket: the call returns -1, and the link stays. -/
theorem mismatch_leaves_link : ¬ ∀ (masks : Masks) (w : World) (fd : ℤ) (address : List Char)
    (port : BitVec 16) (env : Env) (w' : World) (ret : ℤ),
    fdPicoSocketBind masks w fd address port env = some (w', ret) →
      AsAsked w.net w'.net (bindAddress address) ret := by
  intro h
  have hasked : AsAsked bare.net (Option.get _ mismatch_runs).1.net (bindAddress ipv4Text)
      (Option.get _ mismatch_runs).2 := h _ _ _ _ _ _ _ _ (Option.some_get mismatch_runs).symm
  have hret : (Option.get _ mismatch_runs).2 = -1 := by decide
  have hlink : (Option.get _ mismatch_runs).1.net.links4 [10, 0, 0, 2] ≠ none := by decide
  rw [(hasked.1 hret).links4] at hlink
  exact hlink rfl

end FdPicotcp.Links
