import FdPicotcp.Lib.Threads
import FdPicotcp.Table.FdTable

/-! The first `socket()` calls of a process.

    `fd_pico_socket_open` runs `init` if `thread_launched` is 0, and raises the flag before it does.
    A second caller then finds the flag raised and goes on, whether `init` is done or not; the
    results of `init` are looked at by nobody. -/

namespace FdPicotcp.Start
open Transition Threads FdTable CInt

/-- A slot: what `malloc` left there, `NULL`, or an entry. -/
inductive Cell where | garbage | null | entry
  deriving DecidableEq

/-- The globals of `init`. `begun` and `completed` count its runs, `inserted` are the slots that
    calls past the check have written, `ticking` the threads in `fd_pico_stack_loop`. -/
structure Shared where
  threadLaunched : ℕ
  fdTableSize : ℕ
  maxFd : ℤ
  fdTable : Option (List Cell)
  deviceType : ℤ
  picoDev : Option ℕ
  fdErr : FdErr
  ticking : ℕ
  begun : ℕ
  completed : ℕ
  inserted : List ℕ
  deriving DecidableEq

/-- Where a call is: `check` to `launch` in `fd_pico_socket_open`, then in `init`, then past both. -/
inductive Pc where
  | check | launch
  | malloc | rlimit | stackInit | clear (i : ℕ) | device | create
  | past
  deriving DecidableEq

/-- What a thread goes on with: memory, the limit, and what the calls return. -/
inductive Ev where
  | next
  | malloc (ok : Bool)
  | rlimit (cur : ℕ)
  /-- what `pico_vde_create`, `pico_tap_create` or `pico_tun_create` returns -/
  | device (dev : Option ℕ)
  /-- what `pthread_create` returns -/
  | create (err : ℕ)
  /-- a call past the check writes a slot, or doubles the table -/
  | insert (i : ℕ)
  | grow
  deriving DecidableEq

def deviceVde : ℤ := 1
def deviceTap : ℤ := 2
def deviceTun : ℤ := 3

/-- `fd_table[i] = e`; a run that writes elsewhere ends. -/
def setCell (g : Shared) (i : ℕ) (e : Cell) : Option Shared :=
  match g.fdTable with
  | some l => if i < l.length then some { g with fdTable := some (l.set i e) } else none
  | none => none

/-- The end of `init`. -/
def complete (g : Shared) : Shared := { g with completed := g.completed + 1 }

/-- The next statement of a first caller. -/
def callStep (g : Shared) : Pc → Ev → Option (Shared × Pc)
  | .check, .next => some (g, if g.threadLaunched = 0 then .launch else .past)
  | .launch, .next => some ({ g with threadLaunched := g.threadLaunched + 1 }, .malloc)
  | .malloc, .malloc ok => some ({ g with
      fdTable := if ok then some (List.replicate g.fdTableSize .garbage) else none
      begun := g.begun + 1 }, .rlimit)
  | .rlimit, .rlimit cur => some ({ g with maxFd := toInt32 cur }, .stackInit)
  | .stackInit, .next => some (g, .clear 0)
  | .clear i, .next =>
    if i < g.fdTableSize then (setCell g i .null).map fun g => (g, .clear (i + 1))
    else some (g, .device)
  | .device, .device dev =>
    if g.deviceType = deviceVde ∨ g.deviceType = deviceTap ∨ g.deviceType = deviceTun then
      some ({ g with picoDev := dev }, .create)
    else none
  | .device, .next =>
    if g.deviceType = deviceVde ∨ g.deviceType = deviceTap ∨ g.deviceType = deviceTun then none
    else some (complete g, .past)
  | .create, .create err =>
    -- `pthread_create` returns no negative numbers, so the error is never set
    let fdErr := if (err : ℤ) = -1 then .threadError else g.fdErr
    let ticking := if err = 0 then g.ticking + 1 else g.ticking
    some (complete { g with fdErr := fdErr, ticking := ticking }, .past)
  | .past, .insert i =>
    (setCell g i .entry).map fun g => ({ g with inserted := i :: g.inserted }, .past)
  | .past, .grow => g.fdTable.map fun l => ({ g with
      fdTableSize := 2 * g.fdTableSize
      fdTable := some (l ++ List.replicate g.fdTableSize .null) }, .past)
  | _, _ => none

variable {ι : Type} [DecidableEq ι]

/-- Before the first call, with the device type that the application has set. -/
def begin (deviceType : ℤ) : Pool ι Shared Pc :=
  ⟨⟨0, 8, 0, none, deviceType, none, .ok, 0, 0, 0, []⟩, fun _ => .check⟩

/-- `init` has run once: every slot is empty until a call writes it, there is a device, and a thread
    ticks the stack. -/
structure Ready (g : Shared) : Prop where
  once : g.begun = 1 ∧ g.completed = 1
  table : ∃ l, g.fdTable = some l ∧ l.length = g.fdTableSize ∧
    ∀ i e, l[i]? = some e → e = .null ∨ e = .entry ∧ i ∈ g.inserted
  device : g.picoDev.isSome
  ticking : g.ticking = 1

/-- Between the test of the flag and the end of `init`. -/
def Starting (l : Pc) : Prop := l ≠ .check ∧ l ≠ .past

instance (l : Pc) : Decidable (Starting l) := inferInstanceAs (Decidable (_ ∧ _))

/-- The outcome of a statement of `init`: the device type is known, and there is a device and a
    thread. -/
def Succeeds : Pc → Ev → Prop
  | .device, .device dev => dev.isSome
  | .device, .next => False
  | .create, .create err => err = 0
  | _, _ => True

instance (l : Pc) (ev : Ev) : Decidable (Succeeds l ev) := by
  unfold Succeeds
  split <;> infer_instance

/-- No call looks at the flag while another one is starting the stack, and the start succeeds. -/
def Orderly (s : Pool ι Shared Pc) (a : ι × Ev) : Prop :=
  (s.locals a.1 = .check → ∀ u, ¬ Starting (s.locals u)) ∧ Succeeds (s.locals a.1) a.2

instance [Fintype ι] (s : Pool ι Shared Pc) (a : ι × Ev) : Decidable (Orderly s a) :=
  inferInstanceAs (Decidable (_ ∧ _))

/-- What the shared state is while `init` has not run. -/
structure Untouched (g : Shared) : Prop where
  size : 0 < g.fdTableSize
  once : g.begun = 0 ∧ g.completed = 0
  inserted : g.inserted = []
  ticking : g.ticking = 0

/-- What it is in `init`, with the slots below `i` cleared. -/
structure Clearing (g : Shared) (i : ℕ) : Prop where
  launched : g.threadLaunched ≠ 0
  size : 0 < g.fdTableSize
  once : g.begun = 1 ∧ g.completed = 0
  ticking : g.ticking = 0
  bound : i ≤ g.fdTableSize
  length : ∀ l ∈ g.fdTable, l.length = g.fdTableSize
  cleared : ∀ j, j < i → ∃ l, g.fdTable = some l ∧ l[j]? = some .null

/-- The shared state at each statement from the raising of the flag on. -/
def At (g : Shared) : Pc → Prop
  | .launch => Untouched g
  | .malloc => Untouched g ∧ g.threadLaunched ≠ 0
  | .rlimit | .stackInit => Clearing g 0
  | .clear i => Clearing g i
  | .device => Clearing g g.fdTableSize
  | .create => Clearing g g.fdTableSize ∧ g.picoDev.isSome
  | .check | .past => False

/-- Nobody has looked at the flag, one call is starting the stack, or the stack is there. -/
inductive Phase (s : Pool ι Shared Pc) : Prop
  | fresh (h : Untouched s.shared) (hflag : s.shared.threadLaunched = 0)
      (hpc : ∀ u, s.locals u = .check)
  | starting (t : ι) (h : At s.shared (s.locals t)) (hpc : ∀ u, u ≠ t → s.locals u = .check)
  | ready (h : Ready s.shared) (hflag : s.shared.threadLaunched ≠ 0)
      (hpc : ∀ u, s.locals u = .check ∨ s.locals u = .past)

theorem starting_of_at {g : Shared} {l : Pc} (h : At g l) : Starting l := by
  cases l <;> simp [At, Starting] at h ⊢

/-- The last slot is cleared, so the table is empty. -/
theorem Clearing.table {g : Shared} (h : Clearing g g.fdTableSize) :
    ∃ l, g.fdTable = some l ∧ l.length = g.fdTableSize ∧
      ∀ i e, l[i]? = some e → e = .null ∨ e = .entry ∧ i ∈ g.inserted := by
  obtain ⟨l, hl, -⟩ := h.cleared 0 h.size
  refine ⟨l, hl, h.length l hl, ?_⟩
  intro i e he
  obtain ⟨hi, -⟩ := List.getElem?_eq_some_iff.mp he
  obtain ⟨l', hl', hnull⟩ := h.cleared i (h.length l hl ▸ hi)
  rw [hl, Option.some.injEq] at hl'
  subst hl'
  rw [he, Option.some.injEq] at hnull
  exact .inl hnull

/-- One turn of the clearing loop. -/
theorem Clearing.setCell {g g' : Shared} {i : ℕ} (h : Clearing g i) (hi : i < g.fdTableSize)
    (hs : Start.setCell g i .null = some g') : Clearing g' (i + 1) := by
  rw [Start.setCell] at hs
  split at hs
  · next l hl =>
    split at hs
    · next hlt =>
      rw [Option.some.injEq] at hs
      subst hs
      refine ⟨h.launched, h.size, h.once, h.ticking, hi, ?_, ?_⟩
      · rintro _ ⟨⟩
        rw [List.length_set]
        exact h.length l hl
      · intro j hj
        refine ⟨_, rfl, ?_⟩
        rcases Nat.lt_succ_iff_lt_or_eq.mp hj with hlt' | rfl
        · obtain ⟨l', hl', hnull⟩ := h.cleared j hlt'
          rw [hl, Option.some.injEq] at hl'
          subst hl'
          rw [List.getElem?_set_ne (by omega)]
          exact hnull
        · exact List.getElem?_set_self hlt
    · cases hs
  · cases hs

/-- The statements of one call, from the raising of the flag to the end of `init`. -/
theorem at_step {g g' : Shared} {l l' : Pc} {ev : Ev} (h : At g l) (hok : Succeeds l ev)
    (hs : callStep g l ev = some (g', l')) :
    At g' l' ∨ l' = .past ∧ Ready g' ∧ g'.threadLaunched ≠ 0 := by
  cases l with
  | check | past => exact h.elim
  | launch =>
    cases ev <;> simp only [callStep, reduceCtorEq, Option.some.injEq, Prod.mk.injEq] at hs
    obtain ⟨rfl, rfl⟩ := hs
    exact .inl ⟨⟨h.size, h.once, h.inserted, h.ticking⟩, Nat.succ_ne_zero _⟩
  | malloc =>
    cases ev <;> simp only [callStep, reduceCtorEq, Option.some.injEq, Prod.mk.injEq] at hs
    obtain ⟨rfl, rfl⟩ := hs
    obtain ⟨h, hflag⟩ := h
    refine .inl ⟨hflag, h.size, ⟨by simp [h.once], h.once.2⟩, h.ticking, Nat.zero_le _, ?_, ?_⟩
    · simp only
      split
      · rintro _ ⟨⟩
        exact List.length_replicate
      · intro l hl
        cases hl
    · intro j hj
      exact absurd hj (Nat.not_lt_zero j)
  | rlimit =>
    cases ev <;> simp only [callStep, reduceCtorEq, Option.some.injEq, Prod.mk.injEq] at hs
    obtain ⟨rfl, rfl⟩ := hs
    exact .inl ⟨h.launched, h.size, h.once, h.ticking, h.bound, h.length, h.cleared⟩
  | stackInit =>
    cases ev <;> simp only [callStep, reduceCtorEq, Option.some.injEq, Prod.mk.injEq] at hs
    obtain ⟨rfl, rfl⟩ := hs
    exact .inl h
  | clear i =>
    cases ev <;> simp only [callStep, reduceCtorEq] at hs
    split at hs
    · next hi =>
      simp only [Option.map_eq_some_iff, Prod.mk.injEq] at hs
      obtain ⟨u, hu, rfl, rfl⟩ := hs
      exact .inl (Clearing.setCell h hi hu)
    · next hi =>
      simp only [Option.some.injEq, Prod.mk.injEq] at hs
      obtain ⟨rfl, rfl⟩ := hs
      have hend : i = g.fdTableSize := le_antisymm h.bound (not_lt.mp hi)
      rw [At, hend] at h
      exact .inl h
  | device =>
    cases ev <;> simp only [callStep, reduceCtorEq] at hs
    · exact hok.elim
    · next dev =>
      split at hs
      · simp only [Option.some.injEq, Prod.mk.injEq] at hs
        obtain ⟨rfl, rfl⟩ := hs
        exact .inl ⟨⟨h.launched, h.size, h.once, h.ticking, h.bound, h.length, h.cleared⟩,
          hok⟩
      · cases hs
  | create =>
    cases ev <;> simp only [callStep, reduceCtorEq, Option.some.injEq, Prod.mk.injEq] at hs
    next err =>
      obtain ⟨rfl, rfl⟩ := hs
      obtain ⟨h, hsome⟩ := h
      have hok : err = 0 := hok
      refine .inr ⟨rfl, ⟨⟨h.once.1, ?_⟩, h.table, hsome, ?_⟩, h.launched⟩
      · simp [complete, h.once]
      · simp [complete, hok, h.ticking]

/-- A call past the check writes slots of its own. -/
theorem Ready.step {g g' : Shared} {l' : Pc} {ev : Ev} (h : Ready g)
    (hs : callStep g .past ev = some (g', l')) :
    Ready g' ∧ g'.threadLaunched = g.threadLaunched ∧ l' = .past := by
  obtain ⟨l, hl, hlen, hslots⟩ := h.table
  cases ev <;> simp only [callStep, reduceCtorEq, Option.map_eq_some_iff, Prod.mk.injEq] at hs
  · next i =>
    obtain ⟨u, hu, rfl, rfl⟩ := hs
    rw [setCell, hl] at hu
    simp only [Option.ite_none_right_eq_some, Option.some.injEq] at hu
    obtain ⟨hi, rfl⟩ := hu
    refine ⟨⟨h.once, ⟨_, rfl, by rw [List.length_set, hlen], ?_⟩, h.device, h.ticking⟩, rfl, rfl⟩
    intro j e he
    rcases eq_or_ne i j with rfl | hne
    · rw [List.getElem?_set_self hi, Option.some.injEq] at he
      exact .inr ⟨he.symm, List.mem_cons_self ..⟩
    · rw [List.getElem?_set_ne hne] at he
      exact (hslots j e he).imp_right (And.imp_right (List.mem_cons_of_mem i))
  · obtain ⟨u, hu, rfl, rfl⟩ := hs
    rw [hl, Option.some.injEq] at hu
    subst hu
    refine ⟨⟨h.once, ⟨_, rfl, ?_, ?_⟩, h.device, h.ticking⟩, rfl, rfl⟩
    · rw [List.length_append, List.length_replicate, hlen]
      exact (two_mul _).symm
    · intro j e he
      rcases lt_or_ge j l.length with hlt | hge
      · rw [List.getElem?_append_left hlt] at he
        exact hslots j e he
      · rw [List.getElem?_append_right hge] at he
        exact .inl (List.eq_of_mem_replicate (List.mem_of_getElem? he))

/-- STEP: an orderly step goes from one phase to the next. -/
theorem phase_step {s s' : Pool ι Shared Pc} {a : ι × Ev} (h : Phase s) (hord : Orderly s a)
    (hs : step callStep s a = some s') : Phase s' := by
  obtain ⟨t, ev⟩ := a
  obtain ⟨g, l, hstep, rfl⟩ := step_eq_some.mp hs
  cases h with
  | fresh h hflag hpc =>
    rw [hpc t] at hstep
    cases ev <;> simp only [callStep, reduceCtorEq, Option.some.injEq, Prod.mk.injEq] at hstep
    obtain ⟨rfl, rfl⟩ := hstep
    refine .starting t ?_ fun u hu => ?_
    · simp only [Function.update_self, hflag, if_true]
      exact h
    · simp only [Function.update_of_ne hu]
      exact hpc u
  | starting u h hpc =>
    rcases eq_or_ne t u with rfl | hne
    · rcases at_step h hord.2 hstep with hat | ⟨rfl, hready, hflag⟩
      · refine .starting t (by simpa only [Function.update_self] using hat) fun u hu => ?_
        simp only [Function.update_of_ne hu]
        exact hpc u hu
      · refine .ready hready hflag ?_
        rw [Function.forall_update_iff s.locals fun _ l => l = .check ∨ l = .past]
        exact ⟨.inr rfl, fun u hu => .inl (hpc u hu)⟩
    · -- another call may only look at the flag, and not now
      exact absurd (starting_of_at h) (hord.1 (hpc t hne) u)
  | ready h hflag hpc =>
    have hpast : l = .past ∧ Ready g ∧ g.threadLaunched ≠ 0 := by
      rcases hpc t with ht | ht
      · rw [ht] at hstep
        cases ev <;> simp only [callStep, reduceCtorEq, Option.some.injEq, Prod.mk.injEq] at hstep
        obtain ⟨rfl, rfl⟩ := hstep
        exact ⟨if_neg hflag, h, hflag⟩
      · rw [ht] at hstep
        obtain ⟨hready, hsame, hl⟩ := h.step hstep
        exact ⟨hl, hready, hsame ▸ hflag⟩
    obtain ⟨rfl, hready, hflag⟩ := hpast
    refine .ready hready hflag ?_
    rw [Function.forall_update_iff s.locals fun _ l => l = .check ∨ l = .past]
    exact ⟨.inr rfl, fun u _ => hpc u⟩

omit [DecidableEq ι] in
theorem phase_begin (deviceType : ℤ) : Phase (begin deviceType : Pool ι Shared Pc) :=
  .fresh ⟨Nat.succ_pos 7, ⟨rfl, rfl⟩, rfl, rfl⟩ rfl fun _ => rfl

omit [DecidableEq ι] in
theorem Phase.ready_of_past {s : Pool ι Shared Pc} (h : Phase s) {t : ι}
    (ht : s.locals t = .past) : Ready s.shared := by
  cases h with
  | fresh h hflag hpc =>
    rw [hpc t] at ht
    cases ht
  | starting u h hpc =>
    rcases eq_or_ne t u with rfl | hne
    · rw [ht] at h
      exact h.elim
    · rw [hpc t hne] at ht
      cases ht
  | ready h hflag hpc => exact h

/-- NO CALL GETS PAST THE CHECK BEFORE THE STACK IS THERE in an orderly run. -/
theorem past_ready {deviceType : ℤ} {as : List (ι × Ev)} {s : Pool ι Shared Pc}
    (hm : Meets (step callStep) Orderly (begin deviceType) as)
    (hr : run (step callStep) (begin deviceType) as = some s) {t : ι} (ht : s.locals t = .past) :
    Ready s.shared :=
  (run_keeps (fun _ _ _ h hc hs => phase_step h hc hs) (phase_begin deviceType) hm hr).ready_of_past
    ht

/-- The second of two callers finds the flag raised, and there is no table. -/
theorem second_caller_early : ¬ ∀ (as : List (Fin 2 × Ev)) (s : Pool (Fin 2) Shared Pc) (t : Fin 2),
    run (step callStep) (begin deviceVde) as = some s → s.locals t = .past → Ready s.shared := by
  intro h
  have hready := h [(0, .next), (0, .next), (1, .next)] _ 1 rfl rfl
  obtain ⟨l, hl, -⟩ := hready.table
  cases hl

/-- One call starts the stack on a VDE device. -/
def startsVde : List (Fin 2 × Ev) :=
  [(0, .next), (0, .next), (0, .malloc true), (0, .rlimit 1024), (0, .next)] ++
    List.replicate 9 (0, .next) ++ [(0, .device (some 7)), (0, .create 0), (1, .next)]

theorem startsVde_orderly : Meets (step callStep) Orderly (begin deviceVde) startsVde := by decide

/-- Both callers then find it running. -/
theorem past_ready_vde : ∃ s : Pool (Fin 2) Shared Pc,
    run (step callStep) (begin deviceVde) startsVde = some s ∧ s.locals 1 = .past ∧
      Ready s.shared :=
  ⟨_, rfl, rfl, past_ready (t := 1) startsVde_orderly rfl rfl⟩

end FdPicotcp.Start
