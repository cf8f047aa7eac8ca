import Mathlib.Data.Nat.Basic
import Mathlib.Data.List.Basic
import Mathlib.Logic.Function.Basic
import Mathlib.Tactic.Common
import FdPicotcp.Lib.Transition

/-! Does an IPv6 `bind()` follow duplicate address detection?

    `fd_pico_socket_bind` looks the address up, adds a link if `pico_ipv6_link_find` returns `NULL`,
    and then looks it up once a millisecond until three seconds of `time(NULL)` have passed. The
    lookup returns `NULL` for no link and for a tentative one, and `pico_ipv6_link_add` refuses a link
    that is there: a `bind()` that finds a tentative link fails at once.

    The calls take turns with the timer of `pico_ipv6_nd_dad`, with frames that give a duplicate away
    and with the clock. In a run whose steps are `InTime`, every call follows the detection. -/

namespace FdPicotcp.Dad
open Transition

/-- The bytes of an address. -/
abbrev Addr := List UInt8

/-- `struct pico_ipv6_link`. Nothing sets `isduplicate`. -/
structure PicoIpv6Link where
  istentative : Bool
  dupDetectRetrans : BitVec 16
  deriving DecidableEq

/-- `IPV6Links`; there is one device. -/
abbrev Links := Addr → Option PicoIpv6Link

/-- `pico_ipv6_link_find` passes a tentative link over. -/
def picoIpv6LinkFind (links : Links) (addr : Addr) : Bool :=
  match links addr with
  | none => false
  | some l => ! l.istentative

/-- `ok` is that there are a device and memory. -/
def picoIpv6LinkAdd (links : Links) (addr : Addr) (ok : Bool) : Option Links :=
  if (links addr).isSome ∨ ok = false then none
  else some (Function.update links addr (some ⟨true, 1⟩))

/-- The timer; `up` is the state of the device. -/
def picoIpv6NdDad (links : Links) (addr : Addr) (up : Bool) : Links :=
  match links addr with
  | none => links
  | some l =>
    if l.istentative = false ∨ up = false then links
    else
      let istentative := l.dupDetectRetrans ≠ 0
      Function.update links addr (some ⟨istentative, l.dupDetectRetrans - 1⟩)

/-- `fe80::/10` -/
def isLinklocal (addr : Addr) : Bool := addr.getD 0 0 = 0xfe ∧ addr.getD 1 0 >>> 6 = 2

/-- `ipv6_duplicate_detected` of a tentative link. For a link-local address the device gets another
    one, `random`. -/
def ipv6DuplicateDetected (links : Links) (addr random : Addr) (ok : Bool) : Links :=
  let links := Function.update links addr none
  if isLinklocal addr then (picoIpv6LinkAdd links random ok).getD links else links

/-- Where a `bind()` is in `fd_pico_socket_bind`; `start` is `start_time`. -/
inductive Pc where
  | find
  | add
  | time
  | look (start : ℕ)
  | clock (start : ℕ)
  /-- `bound` is that the call went on to `pico_socket_bind` -/
  | done (bound : Bool) (waited : ℕ)
  deriving DecidableEq

/-- `valid` is not in the code: the address has been valid during the call, before the three seconds
    were over. -/
structure Call where
  addr : Addr
  pc : Pc
  valid : Bool
  deriving DecidableEq

/-- `clock` is `time(NULL)`. -/
structure World where
  links : Links
  clock : ℕ
  calls : List Call

/-- The next step of a call. -/
def fdPicoSocketBind (w : World) (ok : Bool) (c : Call) : Links × Call :=
  match c.pc with
  | .find => (w.links, { c with pc := if picoIpv6LinkFind w.links c.addr then .time else .add })
  | .add =>
    match picoIpv6LinkAdd w.links c.addr ok with
    | some links => (links, { c with pc := .time })
    | none => (w.links, { c with pc := .done false 0 })
  | .time => (w.links, { c with pc := .look w.clock })
  | .look start => (w.links, { c with
      pc := if picoIpv6LinkFind w.links c.addr then .done true (w.clock - start) else .clock start })
  | .clock start => (w.links, { c with
      pc := if 3 ≤ w.clock - start then .done false (w.clock - start) else .look start })
  | .done .. => (w.links, c)

/-- A `bind()`, its next step, or something that goes on beside it. -/
inductive Act where
  | bind (addr : Addr)
  | call (i : ℕ) (ok : Bool)
  | tick
  | dad (addr : Addr) (up : Bool)
  | duplicate (addr random : Addr) (ok : Bool)

/-- The three seconds of a call are over. -/
def expired (clock : ℕ) : Pc → Bool
  | .look start => 3 ≤ clock - start
  | .clock start => 3 ≤ clock - start
  | .done .. => true
  | _ => false

/-- What the calls see of an address that is found now. -/
def notice (w : World) (links : Links) (c : Call) : Call :=
  { c with valid := c.valid || (picoIpv6LinkFind links c.addr && ! expired w.clock c.pc) }

/-- One step of a call, of the clock or of the stack. -/
def step (w : World) : Act → Option World
  | .bind addr =>
    some { w with calls := w.calls ++ [⟨addr, .find, picoIpv6LinkFind w.links addr⟩] }
  | .call i ok => (w.calls[i]?).map fun c =>
    { w with
      links := (fdPicoSocketBind w ok c).1
      calls := w.calls.set i (fdPicoSocketBind w ok c).2 }
  | .tick => some { w with clock := w.clock + 1 }
  | .dad addr up =>
    let links := picoIpv6NdDad w.links addr up
    some { w with links, calls := w.calls.map (notice w links) }
  | .duplicate addr random ok =>
    match w.links addr with
    | none => none
    | some l =>
      if l.istentative then some { w with links := ipv6DuplicateDetected w.links addr random ok }
      else none

/-- Any links, and no call yet. -/
def begin (links : Links) (clock : ℕ) : World := ⟨links, clock, []⟩

/-- A call that has come to its end went on to `pico_socket_bind` exactly if the address was valid in
    time, and gave up only when its time was over. -/
def Follows (c : Call) : Prop :=
  match c.pc with
  | .done bound waited => (bound = true ↔ c.valid = true) ∧ (bound = false → 3 ≤ waited)
  | _ => True

/-! What a step must meet -/

/-- The call has last looked, without success, less than a second before its time is over. -/
def AtLimit (clock : ℕ) : Pc → Prop
  | .clock start => clock - start = 2
  | _ => False

/-- The call is about to look, and its time is over. -/
def Late (clock : ℕ) : Pc → Prop
  | .look start => 3 ≤ clock - start
  | _ => False

/-- A link is added only where none is; and no call is held up across its limit while the address
    becomes valid. -/
def InTime (w : World) : Act → Prop
  | .call i ok => ∀ c ∈ w.calls[i]?, c.pc = .add → w.links c.addr = none ∧ ok = true
  | .tick => ∀ c ∈ w.calls, picoIpv6LinkFind w.links c.addr = true → ¬ AtLimit w.clock c.pc
  | .dad addr up => ∀ c ∈ w.calls, picoIpv6LinkFind w.links c.addr = false →
    picoIpv6LinkFind (picoIpv6NdDad w.links addr up) c.addr = true → ¬ Late w.clock c.pc
  | _ => True

instance (clock : ℕ) (pc : Pc) : Decidable (AtLimit clock pc) := by
  unfold AtLimit
  split <;> infer_instance

instance (clock : ℕ) (pc : Pc) : Decidable (Late clock pc) := by
  unfold Late
  split <;> infer_instance

instance (w : World) (act : Act) : Decidable (InTime w act) := by
  unfold InTime
  split
  · exact Option.decidableForallMem _
  · infer_instance
  · infer_instance
  · infer_instance

/-! The lookup -/

variable {links : Links} {addr x : Addr} {w : World} {c : Call}

/-- A tentative link is not found, as no link is not. -/
theorem find_update (h : picoIpv6LinkFind links addr = false) {o : Option PicoIpv6Link}
    (ho : ∀ l, o = some l → l.istentative = true) :
    picoIpv6LinkFind (Function.update links addr o) x = picoIpv6LinkFind links x := by
  rcases eq_or_ne x addr with rfl | hne
  · rw [h, picoIpv6LinkFind, Function.update_self]
    cases o with
    | none => rfl
    | some l => simp [ho l rfl]
  · rw [picoIpv6LinkFind, Function.update_of_ne hne]
    rfl

theorem find_add {links' : Links} {ok : Bool} (h : picoIpv6LinkAdd links addr ok = some links') :
    picoIpv6LinkFind links' x = picoIpv6LinkFind links x := by
  rw [picoIpv6LinkAdd] at h
  split at h
  · cases h
  · rename_i hfree
    rw [Option.some.injEq] at h
    subst h
    refine find_update ?_ ?_
    · rw [not_or, Option.not_isSome_iff_eq_none] at hfree
      rw [picoIpv6LinkFind, hfree.1]
    · rintro l hl
      rw [Option.some.injEq] at hl
      exact hl ▸ rfl

/-- A duplicate takes away a link that no lookup found. -/
theorem find_duplicate {random : Addr} {ok : Bool} (h : picoIpv6LinkFind links addr = false) :
    picoIpv6LinkFind (ipv6DuplicateDetected links addr random ok) x = picoIpv6LinkFind links x := by
  have hnone : picoIpv6LinkFind (Function.update links addr none) x = picoIpv6LinkFind links x := by
    refine find_update h ?_
    rintro l ⟨⟩
  rw [ipv6DuplicateDetected]
  split
  · cases hadd : picoIpv6LinkAdd (Function.update links addr none) random ok with
    | none => exact hnone
    | some links' => exact (find_add hadd).trans hnone
  · exact hnone

/-- The timer makes an address valid, and takes no valid one back. -/
theorem find_dad {up : Bool} (h : picoIpv6LinkFind links x = true) :
    picoIpv6LinkFind (picoIpv6NdDad links addr up) x = true := by
  rw [picoIpv6NdDad]
  cases hl : links addr with
  | none => exact h
  | some l =>
    simp only
    split
    · exact h
    · rename_i htentative
      have hne : x ≠ addr := by
        rintro rfl
        rw [picoIpv6LinkFind, hl] at h
        simp only [not_or, Bool.not_eq_false, Bool.not_eq_true'] at h htentative
        rw [h] at htentative
        exact Bool.false_ne_true htentative.1
      rw [picoIpv6LinkFind, Function.update_of_ne hne]
      exact h

/-! The invariant -/

/-- What `valid` says at each point of a call. -/
def Tracks (w : World) (c : Call) : Prop :=
  match c.pc with
  | .look start => start ≤ w.clock ∧ c.valid = picoIpv6LinkFind w.links c.addr
  | .clock start => start ≤ w.clock ∧
    c.valid = (picoIpv6LinkFind w.links c.addr && decide (w.clock - start < 3))
  | .done bound waited => bound = c.valid ∧ (bound = false → 3 ≤ waited)
  | _ => c.valid = picoIpv6LinkFind w.links c.addr

/-- Every call in progress tracks its link. -/
def Inv (w : World) : Prop := ∀ c ∈ w.calls, Tracks w c

theorem Tracks.follows (h : Tracks w c) : Follows c := by
  obtain ⟨addr, pc, valid⟩ := c
  cases pc with
  | done bound waited =>
    obtain ⟨hbound, hwaited⟩ := h
    exact ⟨by rw [hbound], hwaited⟩
  | find | add | time | look _ | clock _ => trivial

/-- A step that finds what was found before. -/
theorem Tracks.of_find {u : World} (h : Tracks w c) (hclock : u.clock = w.clock)
    (hfind : picoIpv6LinkFind u.links c.addr = picoIpv6LinkFind w.links c.addr) : Tracks u c := by
  obtain ⟨addr, pc, valid⟩ := c
  cases pc <;> simp only [Tracks, hclock, hfind] at h ⊢ <;> exact h

/-- A CALL's own step keeps track of the address, if it adds no link where one is. -/
theorem fdPicoSocketBind_tracks {ok : Bool} (h : Tracks w c)
    (hadd : c.pc = .add → w.links c.addr = none ∧ ok = true) :
    (∀ x, picoIpv6LinkFind (fdPicoSocketBind w ok c).1 x = picoIpv6LinkFind w.links x) ∧
      Tracks { w with links := (fdPicoSocketBind w ok c).1 } (fdPicoSocketBind w ok c).2 := by
  obtain ⟨addr, pc, valid⟩ := c
  cases pc with
  | find =>
    simp only [fdPicoSocketBind, implies_true, true_and]
    split <;> exact h
  | add =>
    obtain ⟨hnone, rfl⟩ := hadd rfl
    have hlink : picoIpv6LinkAdd w.links addr true =
        some (Function.update w.links addr (some ⟨true, 1⟩)) := by
      rw [picoIpv6LinkAdd, if_neg]
      simp only at hnone
      simp [hnone]
    simp only [fdPicoSocketBind, hlink]
    refine ⟨fun x => find_add hlink, ?_⟩
    change valid = picoIpv6LinkFind (Function.update w.links addr (some ⟨true, 1⟩)) addr
    rw [find_add hlink]
    exact h
  | time => exact ⟨fun _ => rfl, le_refl _, h⟩
  | look start =>
    obtain ⟨hstart, hvalid⟩ := h
    simp only at hvalid
    simp only [fdPicoSocketBind, implies_true, true_and]
    split
    · rename_i hfind
      rw [hfind] at hvalid
      exact ⟨hvalid.symm, nofun⟩
    · rename_i hfind
      refine ⟨hstart, ?_⟩
      rw [Bool.not_eq_true] at hfind
      simp only [hvalid, hfind, Bool.false_and]
  | clock start =>
    obtain ⟨hstart, hvalid⟩ := h
    simp only at hvalid
    simp only [fdPicoSocketBind, implies_true, true_and]
    split
    · rename_i hover
      refine ⟨?_, fun _ => hover⟩
      rw [hvalid, decide_eq_false (by omega), Bool.and_false]
    · rename_i hleft
      refine ⟨hstart, ?_⟩
      rw [decide_eq_true (by omega), Bool.and_true] at hvalid
      exact hvalid
  | done bound waited => exact ⟨fun _ => rfl, h⟩

/-- The timer: what a call notices, if it is not late. -/
theorem Tracks.notice {up : Bool} (h : Tracks w c)
    (hlate : picoIpv6LinkFind w.links c.addr = false →
      picoIpv6LinkFind (picoIpv6NdDad w.links addr up) c.addr = true → ¬ Late w.clock c.pc) :
    Tracks { w with links := picoIpv6NdDad w.links addr up }
      (Dad.notice w (picoIpv6NdDad w.links addr up) c) := by
  obtain ⟨x, pc, valid⟩ := c
  have hkept : picoIpv6LinkFind w.links x = true →
      picoIpv6LinkFind (picoIpv6NdDad w.links addr up) x = true := find_dad
  simp only at hlate
  cases pc with
  | done bound waited =>
    obtain ⟨hbound, hwaited⟩ := h
    exact ⟨by simp [Dad.notice, expired, hbound], hwaited⟩
  | find | add | time =>
    simp only [Tracks] at h
    simp only [Tracks, Dad.notice, expired, h, Bool.not_false, Bool.and_true]
    cases hfind : picoIpv6LinkFind w.links x with
    | false => exact Bool.false_or _
    | true => rw [hkept hfind, Bool.or_self]
  | look start =>
    obtain ⟨hstart, hvalid⟩ := h
    refine ⟨hstart, ?_⟩
    simp only [Late, not_le] at hlate hvalid
    simp only [Dad.notice, expired, hvalid]
    cases hfind : picoIpv6LinkFind w.links x with
    | true => rw [hkept hfind, Bool.true_or]
    | false =>
      cases hafter : picoIpv6LinkFind (picoIpv6NdDad w.links addr up) x with
      | false => rfl
      | true =>
        have hleft := hlate hfind hafter
        simp [Nat.not_le_of_lt hleft]
  | clock start =>
    obtain ⟨hstart, hvalid⟩ := h
    refine ⟨hstart, ?_⟩
    have hexpired : (! decide (3 ≤ w.clock - start)) = decide (w.clock - start < 3) := by
      rw [← decide_not]
      exact decide_eq_decide.mpr not_le
    simp only at hvalid
    simp only [Dad.notice, expired, hvalid, hexpired]
    cases hfind : picoIpv6LinkFind w.links x with
    | true => rw [hkept hfind, Bool.or_self]
    | false => exact Bool.false_or _

/-- The clock: no limit passes between a lookup and the reading of the clock after it. -/
theorem Tracks.tick (h : Tracks w c)
    (hlimit : picoIpv6LinkFind w.links c.addr = true → ¬ AtLimit w.clock c.pc) :
    Tracks { w with clock := w.clock + 1 } c := by
  obtain ⟨x, pc, valid⟩ := c
  cases pc with
  | find | add | time | done _ _ => exact h
  | look start =>
    obtain ⟨hstart, hvalid⟩ := h
    exact ⟨Nat.le_succ_of_le hstart, hvalid⟩
  | clock start =>
    obtain ⟨hstart, hvalid⟩ := h
    refine ⟨Nat.le_succ_of_le hstart, ?_⟩
    simp only [AtLimit] at hvalid hlimit ⊢
    cases hfind : picoIpv6LinkFind w.links x with
    | false => rw [hvalid, hfind, Bool.false_and, Bool.false_and]
    | true =>
      have hne := hlimit hfind
      rw [hvalid, hfind, Bool.true_and, Bool.true_and]
      exact decide_eq_decide.mpr (by omega)

theorem inv_step {w' : World} {act : Act} (h : Inv w) (hc : InTime w act)
    (hs : step w act = some w') : Inv w' := by
  cases act with
  | bind addr =>
    rw [step, Option.some.injEq] at hs
    subst hs
    intro c hmem
    rcases List.mem_append.mp hmem with hold | hnew
    · exact h c hold
    · rw [List.mem_singleton] at hnew
      subst hnew
      exact rfl
  | call i ok =>
    obtain ⟨c, hget, hs⟩ := Option.map_eq_some_iff.mp hs
    subst hs
    obtain ⟨hfind, htracks⟩ := fdPicoSocketBind_tracks (h c (List.mem_of_getElem? hget)) (hc c hget)
    intro d hmem
    rcases List.mem_or_eq_of_mem_set hmem with hold | rfl
    · exact (h d hold).of_find rfl (hfind d.addr)
    · exact htracks.of_find rfl rfl
  | tick =>
    rw [step, Option.some.injEq] at hs
    subst hs
    exact fun c hmem => (h c hmem).tick (hc c hmem)
  | dad addr up =>
    rw [step, Option.some.injEq] at hs
    subst hs
    intro d hmem
    obtain ⟨c, hold, rfl⟩ := List.mem_map.mp hmem
    exact ((h c hold).notice (hc c hold)).of_find rfl rfl
  | duplicate addr random ok =>
    simp only [step] at hs
    split at hs
    · cases hs
    · rename_i l hl
      rw [ite_eq_iff] at hs
      obtain ⟨htentative, hs⟩ | ⟨-, hs⟩ := hs
      · rw [Option.some.injEq] at hs
        subst hs
        have hlost : picoIpv6LinkFind w.links addr = false := by
          rw [picoIpv6LinkFind, hl]
          exact congrArg not htentative
        exact fun c hmem => (h c hmem).of_find rfl (find_duplicate hlost)
      · cases hs

/-- DETECTION: in a run in time, over any links to begin with, every call follows the detection. -/
theorem bind_follows_dad {links : Links} {clock : ℕ} {as : List Act} {w : World}
    (hr : run step (begin links clock) as = some w) (hm : Meets step InTime (begin links clock) as) :
    ∀ c ∈ w.calls, Follows c := by
  have hbegin : Inv (begin links clock) := by
    rintro c ⟨⟩
  have hend : Inv w := run_keeps (fun _ _ _ hi hc hs => inv_step hi hc hs) hbegin hm hr
  exact fun c hmem => (hend c hmem).follows

/-- `2001::a` -/
def global : Addr := [0x20, 0x01] ++ List.replicate 13 0 ++ [0xa]

/-- A first call waits for the detection, and a second one finds the address valid. -/
def waits : List Act :=
  [.bind global, .call 0 true, .call 0 true, .call 0 true, .call 0 true, .dad global true, .tick, .dad global true,
    .call 0 true, .call 0 true, .bind global, .call 1 true, .call 1 true, .call 1 true]

theorem waits_runs : (run step (begin (fun _ => none) 100) waits).isSome := by
  decide

theorem bind_follows_dad_waits : Follows ⟨global, .done true 1, true⟩ :=
  bind_follows_dad (Option.some_get waits_runs).symm (by decide) _ (by decide)

/-- A second call comes while the first is waiting, and the address becomes valid a second later. -/
def second : List Act :=
  [.bind global, .call 0 true, .call 0 true, .bind global, .call 1 true, .call 1 true, .dad global true, .tick,
    .dad global true]

theorem second_runs : (run step (begin (fun _ => none) 100) second).isSome := by
  decide

/-- It gives up at once. -/
theorem second_bind_gives_up : ¬ ∀ (links : Links) (clock : ℕ) (as : List Act) (w : World),
    run step (begin links clock) as = some w → ∀ c ∈ w.calls, Follows c := by
  intro h
  have hcall : (⟨global, .done false 0, false⟩ : Call) ∈ (Option.get _ second_runs).calls := by decide
  have hfollows := h _ _ _ _ (Option.some_get second_runs).symm _ hcall
  exact absurd (hfollows.2 rfl) (by decide)

end FdPicotcp.Dad
