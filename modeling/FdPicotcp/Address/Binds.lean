import FdPicotcp.Address.Netmask
import FdPicotcp.Table.Calls

/-! Are the models of `fd_pico_socket_bind` one function?

    `Dad` goes through its IPv6 half step by step, next to other calls and the timer; `Links` makes the
    call at once, with polls for what happens meanwhile, and `Netmask` adds the status. In `Status` it
    is a program on the globals, and `Family` keeps the objects that it hands to the stack. Each of
    them is tied to another one here, so that they agree on what a call returns and records. -/

namespace FdPicotcp.Binds
open Transition Program FdTable AddressText Status
open Family (Masks Address)
open Dad (Addr picoIpv6LinkFind)
open Links (Ifaces Poll StackEvent waitForDad stackEvent)

/-! The call at once, and step by step -/

/-- A run of the calls, the timer and the clock. -/
abbrev Reaches (s t : Dad.World) : Prop := Transition.Path Dad.step (fun _ _ => True) s t

/-- One call and no other. -/
def alone (net : Ifaces) (clock : ℕ) (c : Dad.Call) : Dad.World := ⟨net.links6, clock, [c]⟩

variable {net net' u : Ifaces} {addr : Addr} {clock start : ℕ} {c : Dad.Call} {valid found : Bool}
  {ps : List Poll}

theorem reaches_call (net : Ifaces) (clock : ℕ) (c : Dad.Call) (ok : Bool) :
    Reaches (alone net clock c) ⟨(Dad.fdPicoSocketBind (alone net clock c) ok c).1, clock,
      [(Dad.fdPicoSocketBind (alone net clock c) ok c).2]⟩ :=
  .single (a := .call 0 ok) trivial rfl

theorem reaches_find (net : Ifaces) (clock : ℕ) (addr : Addr) (valid : Bool) :
    Reaches (alone net clock ⟨addr, .find, valid⟩) (alone net clock ⟨addr,
      if picoIpv6LinkFind net.links6 addr then .time else .add, valid⟩) :=
  reaches_call net clock _ true

theorem reaches_look (net : Ifaces) (clock : ℕ) (addr : Addr) (start : ℕ) (valid : Bool) :
    Reaches (alone net clock ⟨addr, .look start, valid⟩) (alone net clock ⟨addr,
      if picoIpv6LinkFind net.links6 addr then .done true (clock - start) else .clock start, valid⟩) :=
  reaches_call net clock _ true

theorem reaches_clock (net : Ifaces) (clock : ℕ) (addr : Addr) (start : ℕ) (valid : Bool) :
    Reaches (alone net clock ⟨addr, .clock start, valid⟩) (alone net clock ⟨addr,
      if 3 ≤ clock - start then .done false (clock - start) else .look start, valid⟩) :=
  reaches_call net clock _ true

theorem reaches_ticks (net : Ifaces) (clock : ℕ) (c : Dad.Call) (n : ℕ) :
    Reaches (alone net clock c) (alone net (clock + n) c) := by
  induction n with
  | zero => exact .refl _
  | succ n ih => exact ih.trans (.single (a := .tick) trivial rfl)

theorem ipv6DuplicateDetected_links6 (net : Ifaces) (addr random : Addr) (env : Links.LinkEnv) :
    (Links.ipv6DuplicateDetected net addr random env).links6 =
      Dad.ipv6DuplicateDetected net.links6 addr random env.ok := by
  rw [Links.ipv6DuplicateDetected, Dad.ipv6DuplicateDetected]
  split
  · rw [Links.picoIpv6LinkAdd]
    cases h : Dad.picoIpv6LinkAdd (Links.picoIpv6LinkDel net addr).links6 random env.ok with
    | none =>
      rw [Links.picoIpv6LinkDel] at h
      rw [h]
      rfl
    | some links =>
      rw [Links.picoIpv6LinkDel] at h
      rw [h]
      rfl
  · rfl

/-- What the stack does during `usleep`. -/
theorem reaches_event (net : Ifaces) (clock : ℕ) (addr : Addr) (e : StackEvent) (pc : Dad.Pc)
    (valid : Bool) : ∃ valid',
    Reaches (alone net clock ⟨addr, pc, valid⟩)
      (alone (stackEvent addr net e) clock ⟨addr, pc, valid'⟩) := by
  cases e with
  | timer up => exact ⟨_, .single (a := .dad addr up) trivial rfl⟩
  | duplicate random env =>
    rw [stackEvent]
    cases hl : net.links6 addr with
    | none => exact ⟨valid, .refl _⟩
    | some l =>
      by_cases htentative : l.istentative
      · refine ⟨valid, .single (a := .duplicate addr random env.ok) trivial ?_⟩
        simp only [Dad.step, alone, hl, htentative, if_true, ipv6DuplicateDetected_links6]
      · simp only [if_neg htentative]
        exact ⟨valid, .refl _⟩

theorem reaches_events (net : Ifaces) (clock : ℕ) (addr : Addr) (es : List StackEvent) (pc : Dad.Pc)
    (valid : Bool) : ∃ valid',
    Reaches (alone net clock ⟨addr, pc, valid⟩)
      (alone (es.foldl (stackEvent addr) net) clock ⟨addr, pc, valid'⟩) := by
  induction es generalizing net valid with
  | nil => exact ⟨valid, .refl _⟩
  | cons e es ih =>
    obtain ⟨v, hfirst⟩ := reaches_event net clock addr e pc valid
    obtain ⟨v', hrest⟩ := ih (stackEvent addr net e) v
    exact ⟨v', hfirst.trans hrest⟩

/-- The polls of the loop are looks at the link, with the clock and the stack in between. -/
theorem reaches_waitForDad (valid : Bool) (h : waitForDad addr net ps = some (net', found))
    (hps : ps.Pairwise fun p q => p.waited ≤ q.waited) (hclock : ∀ p ∈ ps, clock ≤ start + p.waited) :
    ∃ clock' waited valid', Reaches (alone net clock ⟨addr, .look start, valid⟩)
      (alone net' clock' ⟨addr, .done found waited, valid'⟩) := by
  induction ps generalizing net clock valid with
  | nil =>
    rw [waitForDad, Option.ite_none_right_eq_some, Option.some.injEq, Prod.mk.injEq] at h
    obtain ⟨hfind, rfl, rfl⟩ := h
    have hlook := reaches_look net clock addr start valid
    rw [if_pos hfind] at hlook
    exact ⟨_, _, _, hlook⟩
  | cons p ps ih =>
    have hlook := reaches_look net clock addr start valid
    rw [waitForDad] at h
    by_cases hfind : picoIpv6LinkFind net.links6 addr
    · rw [if_pos hfind, Option.some.injEq, Prod.mk.injEq] at h
      obtain ⟨rfl, rfl⟩ := h
      rw [if_pos hfind] at hlook
      exact ⟨_, _, _, hlook⟩
    rw [if_neg hfind] at h hlook
    obtain ⟨hlater, hps⟩ := List.pairwise_cons.mp hps
    have hp := hclock p (List.mem_cons_self ..)
    have hticks := reaches_ticks net clock ⟨addr, .clock start, valid⟩ (start + p.waited - clock)
    rw [Nat.add_sub_cancel' hp] at hticks
    have hclock' := reaches_clock net (start + p.waited) addr start valid
    rw [Nat.add_sub_cancel_left] at hclock'
    have htest := (hlook.trans hticks).trans hclock'
    by_cases hover : 3 ≤ p.waited
    · rw [if_pos hover, Option.some.injEq, Prod.mk.injEq] at h
      obtain ⟨rfl, rfl⟩ := h
      rw [if_pos hover] at htest
      exact ⟨_, _, _, htest⟩
    · rw [if_neg hover] at h htest
      obtain ⟨v, hevents⟩ :=
        reaches_events net (start + p.waited) addr p.events (.look start) valid
      obtain ⟨clock', waited, valid', hrest⟩ := ih v h hps fun q hq =>
        Nat.add_le_add_left (hlater q hq) start
      exact ⟨clock', waited, valid', (htest.trans hevents).trans hrest⟩

/-- A call that the link is there for, or is added for, up to the end of its waiting. -/
theorem reaches_bind {netmask : Addr} {env : Links.LinkEnv} (clock : ℕ)
    (hlink : (if picoIpv6LinkFind net.links6 addr then some net
      else Links.picoIpv6LinkAdd net addr netmask env) = some u)
    (hwait : waitForDad addr u ps = some (net', found))
    (hps : ps.Pairwise fun p q => p.waited ≤ q.waited) :
    ∃ clock' waited valid', Reaches (Dad.begin net.links6 clock)
      (alone net' clock' ⟨addr, .done found waited, valid'⟩) := by
  obtain ⟨valid, hcall⟩ : ∃ valid, Reaches (Dad.begin net.links6 clock)
      (alone net clock ⟨addr, .find, valid⟩) := ⟨_, .single (a := .bind addr) trivial rfl⟩
  obtain ⟨clock', waited, valid', hrest⟩ := reaches_waitForDad valid hwait hps fun p _ =>
    Nat.le_add_right clock p.waited
  have htime : Reaches (alone u clock ⟨addr, .time, valid⟩) (alone u clock ⟨addr, .look clock, valid⟩) :=
    reaches_call u clock _ true
  have hfind := reaches_find net clock addr valid
  refine ⟨clock', waited, valid', hcall.trans (.trans ?_ (htime.trans hrest))⟩
  by_cases hfound : picoIpv6LinkFind net.links6 addr
  · rw [if_pos hfound, Option.some.injEq] at hlink
    subst hlink
    rwa [if_pos hfound] at hfind
  · rw [if_neg hfound] at hlink hfind
    obtain ⟨links, hadd, rfl⟩ := Option.map_eq_some_iff.mp hlink
    have hadds := reaches_call net clock ⟨addr, .add, valid⟩ env.ok
    simp only [Dad.fdPicoSocketBind, alone, hadd] at hadds
    exact hfind.trans hadds

/-! The program on the globals -/

variable {g : Shared} {fd : ℤ} {l : FdElem ℕ} {address : List Char}

section Family
variable {masks : Masks} {w w' : Family.World} {a : ℕ} {env : Family.Env} {launched : Bool}

/-- What the program is answered where `Family` has an environment. -/
abbrev answers (masks : Masks) (env : Family.Env) : BindEnv :=
  ⟨masks, env.linkFind, env.linkAdd, env.dad, if env.ok then 0 else -1⟩

theorem stackCall_frame {o : Address} {ok : Bool} {f : Socket.PicoSocket → Socket.PicoSocket}
    (h : Family.stackCall w fd a o ok f = some w') :
    w'.own.globals = w.own.globals ∧ w'.ret = if ok then 0 else -1 := by
  rw [Family.stackCall, Ownership.onSocket] at h
  obtain ⟨own, hown, rfl⟩ := Option.map_eq_some_iff.mp h
  split at hown
  · obtain ⟨s, -, rfl⟩ := Option.map_eq_some_iff.mp hown
    exact ⟨rfl, rfl⟩
  · cases hown

/-- The link is there or is added, or the call has failed. -/
theorem link_cases (w : Family.World) (env : Family.Env) (o : Address) :
    (∃ u, Family.link w env o = some u ∧ u.own = w.own ∧ ¬ (¬ env.linkFind ∧ ¬ env.linkAdd)) ∨
      Family.link w env o = none ∧ ¬ env.linkFind ∧ ¬ env.linkAdd := by
  rw [Family.link]
  cases env.linkFind <;> cases env.linkAdd <;> simp

theorem bind_family_ipv4 (hslot : slot w.own.globals fd = .ok (some l)) (h4 : isIpv4 address)
    (h : Family.fdPicoSocketBind masks w fd a address env = some w') :
    reported ((Status.fdPicoSocketBind fd address (answers masks env)).exec handler
      ⟨w.own.globals, launched⟩) = some (some w'.ret, w'.own.globals) := by
  rw [Status.fdPicoSocketBind, exec_lookup_entry hslot]
  rw [Family.fdPicoSocketBind, if_pos h4] at h
  simp only [if_pos h4]
  cases hip : picoStringToIpv4 address with
  | none =>
    simp only [hip, Option.some.injEq] at h
    subst h
    rfl
  | some ip =>
    cases hmask : picoStringToIpv4 masks.ipv4 with
    | none =>
      simp only [hip, hmask, Option.isNone_none, if_true, Option.some.injEq] at h
      subst h
      rfl
    | some netmask =>
      simp only [hip, hmask, Option.isNone_some, Bool.false_eq_true, if_false] at h ⊢
      obtain ⟨u, hlink, hown, htest⟩ | ⟨hlink, htest⟩ := link_cases w env (.ip4 ip)
      · rw [hlink] at h
        obtain ⟨hglobals, hret⟩ := stackCall_frame h
        rw [if_neg htest, hglobals, hret, hown]
        rfl
      · rw [hlink, Option.some.injEq] at h
        subst h
        rw [if_pos htest]
        rfl

theorem bind_family_ipv6 (hslot : slot w.own.globals fd = .ok (some l)) (h4 : ¬ isIpv4 address)
    (h6 : isIpv6 address) (h : Family.fdPicoSocketBind masks w fd a address env = some w') :
    reported ((Status.fdPicoSocketBind fd address (answers masks env)).exec handler
      ⟨w.own.globals, launched⟩) = some (some w'.ret, w'.own.globals) := by
  rw [Status.fdPicoSocketBind, exec_lookup_entry hslot]
  rw [Family.fdPicoSocketBind, if_neg h4, if_pos h6] at h
  simp only [if_neg h4, if_pos h6]
  rcases hip : picoStringToIpv6 address with (_ | _) | ip <;> simp only [hip] at h ⊢
  · cases h
    rfl
  · cases h
  rcases hmask : picoStringToIpv6 masks.ipv6 with (_ | _) | netmask <;> simp only [hmask] at h ⊢
  · cases h
    rfl
  · cases h
  obtain ⟨u, hlink, hown, htest⟩ | ⟨hlink, htest⟩ := link_cases w env (.ip6 ip)
  · rw [hlink] at h
    rw [if_neg htest]
    cases hdad : env.dad with
    | false =>
      simp only [hdad, Bool.false_eq_true, if_false, Option.some.injEq] at h
      subst h
      simp only [Family.World.fail, hown]
      rfl
    | true =>
      simp only [hdad, if_true] at h
      obtain ⟨hglobals, hret⟩ := stackCall_frame h
      rw [hglobals, hret, hown]
      rfl
  · rw [hlink, Option.some.injEq] at h
    subst h
    rw [if_pos htest]
    rfl

/-- A call that comes back in `Family`: the program returns the same and leaves the same globals. -/
theorem fdPicoSocketBind_family (hslot : slot w.own.globals fd = .ok (some l))
    (h : Family.fdPicoSocketBind masks w fd a address env = some w') :
    reported ((Status.fdPicoSocketBind fd address (answers masks env)).exec handler
      ⟨w.own.globals, launched⟩) = some (some w'.ret, w'.own.globals) := by
  by_cases h4 : isIpv4 address
  · exact bind_family_ipv4 hslot h4 h
  by_cases h6 : isIpv6 address
  · exact bind_family_ipv6 hslot h4 h6 h
  rw [Family.fdPicoSocketBind, if_neg h4, if_neg h6, Option.some.injEq] at h
  subst h
  rw [Status.fdPicoSocketBind, exec_lookup_entry hslot]
  simp only [if_neg h4, if_neg h6]
  rfl

end Family

section Netmask
variable {w w' : Netmask.World} {port : BitVec 16} {env : Links.Env} {ret : ℤ}

/-- A failure is recorded on both sides. -/
theorem left_fail {e : FdErr} (h : some (w.fail e) = some (w', ret)) :
    reported ((fail e).exec handler g) = some (some ret, { g.globals with fdErr := w'.fdErr }) := by
  cases h
  rfl

/-- What the stack returns leaves `fd_err` as it is. -/
theorem left_answer {r : Links.World × ℤ} (herr : g.globals.fdErr = w.fdErr)
    (h : w.returned r = (w', ret)) :
    reported ((pure (.answer ret) : Call).exec handler g) =
      some (some ret, { g.globals with fdErr := w'.fdErr }) := by
  cases h
  simp only [← herr]
  rfl

/-- The program does what the call of `Netmask` does, for some answers of the stack. -/
def Matches (w : Netmask.World) (g : Shared) (fd : ℤ) (address : List Char) (r : Netmask.World × ℤ) :
    Prop :=
  ∃ answers : BindEnv, answers.masks = w.masks ∧
    reported ((Status.fdPicoSocketBind fd address answers).exec handler g) =
      some (some r.2, { g.globals with fdErr := r.1.fdErr })

variable {p : ℕ × PortTable.PicoSocket}

theorem bind_netmask_ipv4 (hslot : slot g.globals fd = .ok (some l))
    (hsock : w.ports.socketOf fd = some p) (herr : g.globals.fdErr = w.fdErr) (h4 : isIpv4 address)
    (h : Netmask.fdPicoSocketBind w fd address port env = some (w', ret)) :
    Matches w g fd address (w', ret) := by
  simp only [Netmask.fdPicoSocketBind, hsock, if_pos h4] at h
  simp only [Matches, Status.fdPicoSocketBind, exec_lookup_entry hslot, if_pos h4]
  cases hip : picoStringToIpv4 address with
  | none =>
    simp only [hip] at h
    exact ⟨⟨w.masks, true, true, true, 0⟩, rfl, left_fail h⟩
  | some ip =>
    cases hmask : picoStringToIpv4 w.masks.ipv4 with
    | none =>
      simp only [hip, hmask] at h
      refine ⟨⟨w.masks, true, true, true, 0⟩, rfl, ?_⟩
      simp only [Option.isNone_some, Bool.false_eq_true, if_false, hmask]
      exact left_fail h
    | some netmask =>
      simp only [hip, hmask] at h
      generalize (if (w.net.links4 ip).isSome = true then _ else _) = linked at h
      cases linked with
      | none =>
        refine ⟨⟨w.masks, false, false, true, 0⟩, rfl, ?_⟩
        simp only [Option.isNone_some, Bool.false_eq_true, if_false, hmask]
        exact left_fail h
      | some net =>
        refine ⟨⟨w.masks, true, true, true, ret⟩, rfl, ?_⟩
        simp only [Option.isNone_some, Bool.false_eq_true, if_false, hmask]
        exact left_answer herr (Option.some.inj h)

theorem bind_netmask_ipv6 (hslot : slot g.globals fd = .ok (some l))
    (hsock : w.ports.socketOf fd = some p) (herr : g.globals.fdErr = w.fdErr) (h4 : ¬ isIpv4 address)
    (h6 : isIpv6 address) (h : Netmask.fdPicoSocketBind w fd address port env = some (w', ret)) :
    Matches w g fd address (w', ret) := by
  simp only [Netmask.fdPicoSocketBind, hsock, if_neg h4, if_pos h6] at h
  simp only [Matches, Status.fdPicoSocketBind, exec_lookup_entry hslot, if_neg h4, if_pos h6]
  rcases hip : picoStringToIpv6 address with (_ | _) | ip <;> simp only [hip] at h ⊢
  · exact ⟨⟨w.masks, true, true, true, 0⟩, rfl, left_fail h⟩
  · cases h
  rcases hmask : picoStringToIpv6 w.masks.ipv6 with (_ | _) | netmask <;> simp only [hmask] at h
  · refine ⟨⟨w.masks, true, true, true, 0⟩, rfl, ?_⟩
    simp only [hmask]
    exact left_fail h
  · cases h
  generalize (if picoIpv6LinkFind w.net.links6 ip = true then _ else _) = linked at h
  cases linked with
  | none =>
    refine ⟨⟨w.masks, false, false, true, 0⟩, rfl, ?_⟩
    simp only [hmask]
    exact left_fail h
  | some net =>
    obtain ⟨⟨net', found⟩, -, h⟩ := Option.map_eq_some_iff.mp h
    refine ⟨⟨w.masks, true, true, found, ret⟩, rfl, ?_⟩
    simp only [hmask]
    cases found with
    | false => exact left_fail (w := { w with net := net' }) (congrArg some h)
    | true => exact left_answer herr h

/-- The same with the ports and links of `Netmask`, if the slot is filled where the ports have a socket
    and `fd_err` is the same before the call. -/
theorem fdPicoSocketBind_netmask {o : Option (FdElem ℕ)} (hslot : slot g.globals fd = .ok o)
    (hentry : o.isSome = (w.ports.socketOf fd).isSome) (herr : g.globals.fdErr = w.fdErr)
    (h : Netmask.fdPicoSocketBind w fd address port env = some (w', ret)) :
    Matches w g fd address (w', ret) := by
  cases hsock : w.ports.socketOf fd with
  | none =>
    rw [hsock] at hentry
    obtain rfl : o = none := by simpa using hentry
    rw [Netmask.fdPicoSocketBind, hsock] at h
    refine ⟨⟨w.masks, true, true, true, 0⟩, rfl, ?_⟩
    rw [Status.fdPicoSocketBind, exec_bind, exec_lookup, hslot]
    exact left_fail h
  | some p =>
    rw [hsock] at hentry
    obtain ⟨l, rfl⟩ := Option.isSome_iff_exists.mp hentry
    by_cases h4 : isIpv4 address
    · exact bind_netmask_ipv4 hslot hsock herr h4 h
    by_cases h6 : isIpv6 address
    · exact bind_netmask_ipv6 hslot hsock herr h4 h6 h
    simp only [Netmask.fdPicoSocketBind, hsock, if_neg h4, if_neg h6] at h
    refine ⟨⟨w.masks, true, true, true, 0⟩, rfl, ?_⟩
    simp only [Status.fdPicoSocketBind, exec_lookup_entry hslot, if_neg h4, if_neg h6]
    exact left_fail h

end Netmask

end FdPicotcp.Binds
