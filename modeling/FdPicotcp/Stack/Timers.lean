import FdPicotcp.Lib.Transition
import FdPicotcp.Stack.Heap
import Mathlib.Data.Multiset.Filter
import Mathlib.Tactic.Abel

/-! When does a timer of the stack fire (`stack/pico_stack.c`)?

    `pico_timer_add` puts a timer into a heap that is ordered by expiry, `pico_timer_cancel` only
    takes its function out, and `pico_check_timers` calls those that have expired, one after the
    other. A function that is called adds and cancels timers itself: between `turn` and `ret` the
    acts are its own. Times are in milliseconds; `PICO_TIME_MS` has 32 bits and follows the time of
    day, so from one check to the next it may wrap or be set back. -/

namespace FdPicotcp.Timers
open DeclareHeap BinaryHeap Transition

/-- `struct pico_timer`: which function is called, with which argument. -/
structure PicoTimer where
  timer : ℕ
  arg : ℕ
  deriving DecidableEq

/-- `struct pico_timer_ref`; `tmr` is NULL when the timer was cancelled. -/
structure PicoTimerRef where
  expire : ℕ
  id : ℕ
  tmr : Option PicoTimer
  deriving DecidableEq, Inhabited

/-- Where `pico_check_timers` is. -/
inductive Pc where
  | idle
  | looping
  | calling
  deriving DecidableEq

/-- The globals of `pico_stack.c`, and what is recorded of them. -/
structure Stack where
  timers : Heap PicoTimerRef
  tmrId : ℕ
  picoTick : ℕ
  pc : Pc
  /-- the last value of `PICO_TIME_MS` -/
  clock : ℕ
  /-- the timers that `pico_timer_add` gave an identifier -/
  added : List PicoTimerRef
  /-- with the `pico_tick` that the function was called with -/
  fired : List (ℕ × PicoTimerRef)
  cancelled : List PicoTimerRef
  /-- those for which `heap_insert` found no memory, which `pico_timer_add` does not look at -/
  lost : List PicoTimerRef

/-- What the stack does; `now` is the value of `PICO_TIME_MS`. -/
inductive Act where
  /-- `mem` and `heapMem`: is there memory for the timer and for the heap -/
  | add (now expire : ℕ) (timer : PicoTimer) (mem heapMem : Bool)
  | cancel (id : ℕ)
  | check (now : ℕ)
  /-- a turn of the loop up to the call -/
  | turn
  /-- the function returns -/
  | ret
  deriving DecidableEq

/-- Returns the identifier of the timer, 0 when there is no memory. -/
def picoTimerAdd (s : Stack) (now expire : ℕ) (timer : PicoTimer) (mem heapMem : Bool) : ℕ × Stack :=
  -- zero is guard for timers
  let tmrId := if s.tmrId = 0 then 1 else s.tmrId
  if mem = false then (0, { s with tmrId := tmrId })
  else
    let tref : PicoTimerRef :=
      { expire := (now + expire) % 2 ^ 64, id := tmrId, tmr := some timer }
    let (ret, timers) := heapInsert PicoTimerRef.expire s.timers tref heapMem
    (tref.id, { s with
      timers := timers
      tmrId := (tmrId + 1) % 2 ^ 32
      clock := now
      added := s.added ++ [tref]
      lost := if ret < 0 then s.lost ++ [tref] else s.lost })

/-- `pico_timer_cancel`: 0 is no timer. -/
def picoTimerCancel (s : Stack) (id : ℕ) : Stack :=
  if id = 0 then s
  else
    match (List.range' 1 s.timers.n).find? fun i => (s.timers.top i).id = id with
    | none => s
    | some i =>
      let tref := s.timers.top i
      { s with
        timers.top := Function.update s.timers.top i { tref with tmr := none }
        cancelled := if tref.tmr.isSome then s.cancelled ++ [tref] else s.cancelled }

/-- `heap_peek` at the end of a turn. -/
def pop (s : Stack) : Stack :=
  match heapPeek PicoTimerRef.expire s.timers with
  | none => { s with pc := .looping }
  | some (_, timers) => { s with timers := timers, pc := .looping }

/-- The condition of the loop and its body up to the call. -/
def turn (s : Stack) : Stack :=
  match heapFirst s.timers with
  | none => { s with pc := .idle }
  | some tref =>
    if tref.expire < s.picoTick then
      match tref.tmr with
      | none => pop s
      | some _ => { s with pc := .calling, fired := s.fired ++ [(s.picoTick, tref)] }
    else { s with pc := .idle }

/-- Timers are added and cancelled between two checks or by the function that is called. -/
def step (s : Stack) : Act → Option Stack
  | .add now expire timer mem heapMem =>
    if s.pc = .looping then none else some (picoTimerAdd s now expire timer mem heapMem).2
  | .cancel id => if s.pc = .looping then none else some (picoTimerCancel s id)
  | .check now =>
    if s.pc = .idle then some { s with picoTick := now, clock := now, pc := .looping } else none
  | .turn => if s.pc = .looping then some (turn s) else none
  | .ret => if s.pc = .calling then some (pop s) else none

/-- After `pico_stack_init`. -/
def begin : Stack where
  timers := heapInit
  tmrId := 0
  picoTick := 0
  pc := .idle
  clock := 0
  added := []
  fired := []
  cancelled := []
  lost := []

/-- A function that is called does not cancel its own timer (`pico_check_timers` would free it again),
    and a timer that it adds has not expired at `pico_tick`: meanwhile the clock neither wraps nor is
    set back behind it, and the sum has 64 bits. -/
def Sane (s : Stack) : Act → Prop
  | .add now expire _ _ _ => s.pc = .calling → s.picoTick ≤ (now + expire) % 2 ^ 64
  | .cancel id => s.pc = .calling → (s.timers.top 1).id ≠ id
  | .check _ | .turn | .ret => True

/-- The clock does not go back at all, and expiries have 64 bits. -/
def Forward (s : Stack) : Act → Prop
  | .add now expire _ _ _ => s.clock ≤ now ∧ now + expire < 2 ^ 64
  | .check now => s.clock ≤ now
  | .cancel _ | .turn | .ret => True

instance (s : Stack) : DecidablePred (Sane s)
  | .add .. | .cancel _ => inferInstanceAs (Decidable (_ → _))
  | .check _ | .turn | .ret => isTrue trivial

instance (s : Stack) : DecidablePred (Forward s)
  | .add .. => inferInstanceAs (Decidable (_ ∧ _))
  | .check _ => inferInstanceAs (Decidable (_ ≤ _))
  | .cancel _ | .turn | .ret => isTrue trivial

/-- What is in the heap. -/
def queued (s : Stack) : Multiset PicoTimerRef := contents s.timers.n s.timers.top

/-- Timers that are in the heap and not cancelled. -/
def live (s : Stack) : Multiset PicoTimerRef := (queued s).filter fun e => e.tmr.isSome

/-- The timer whose function runs; it stays in the heap until the function returns. -/
def running (s : Stack) : Multiset PicoTimerRef :=
  if s.pc = .calling then {s.timers.top 1} else 0

/-- Timers that wait for their call. -/
def pending (s : Stack) : Multiset PicoTimerRef := live s - running s

/-- Where every timer is. -/
structure Inv (s : Stack) : Prop where
  wf : Wf PicoTimerRef.expire s.timers
  split : s.added + running s = live s + s.fired.map Prod.snd + s.cancelled + s.lost
  called : s.pc = .calling → s.timers.n ≠ 0 ∧ (s.timers.top 1).expire < s.picoTick ∧
    (s.timers.top 1).tmr.isSome
  early : ∀ p ∈ s.fired, p.2.expire < p.1

/-- These timers were called in the order of their expiry, and none that is queued comes before
    them. -/
structure InOrder (l : List (ℕ × PicoTimerRef)) (s : Stack) : Prop where
  sorted : l.Pairwise fun p q => p.2.expire ≤ q.2.expire
  behind : ∀ p ∈ l, ∀ e ∈ queued s, p.2.expire ≤ e.expire

variable {s t : Stack}

/-- What `pico_timer_add` does at `now` with a timer that is to expire at `due`. -/
inductive Added (s : Stack) (now due : ℕ) : Stack → Prop
  | noMemory (tmrId : ℕ) : Added s now due { s with tmrId := tmrId }
  | lost (e : PicoTimerRef) (tmrId : ℕ) (he : e.expire = due) : Added s now due { s with
      tmrId := tmrId, clock := now, added := s.added ++ [e], lost := s.lost ++ [e] }
  | queued (e : PicoTimerRef) (tmrId : ℕ) (timers : Heap PicoTimerRef) (he : e.expire = due)
      (hsome : e.tmr.isSome) (hwf : Wf PicoTimerRef.expire timers) (hn : timers.n = s.timers.n + 1)
      (hcont : contents timers.n timers.top = e ::ₘ contents s.timers.n s.timers.top)
      (hroot : s.timers.n ≠ 0 → (s.timers.top 1).expire ≤ due →
        timers.top 1 = s.timers.top 1) : Added s now due { s with
      timers := timers, tmrId := tmrId, clock := now, added := s.added ++ [e] }

theorem picoTimerAdd_spec (h : Wf PicoTimerRef.expire s.timers) (now expire : ℕ)
    (timer : PicoTimer) (mem heapMem : Bool) :
    Added s now ((now + expire) % 2 ^ 64) (picoTimerAdd s now expire timer mem heapMem).2 := by
  rw [picoTimerAdd]
  split
  · exact .noMemory _
  · generalize (if s.tmrId = 0 then 1 else s.tmrId) = tmrId
    rcases heapInsert_spec h ⟨(now + expire) % 2 ^ 64, tmrId, some timer⟩ heapMem with ⟨hins, -⟩ |
      ⟨u, hins, hwf, hn, hcont, hroot⟩
    · simp only [hins]
      exact .lost _ _ rfl
    · simp only [hins]
      exact .queued ⟨_, tmrId, some timer⟩ _ u rfl rfl hwf hn hcont hroot

/-- What `pico_timer_cancel` does with the timer it finds, if any. -/
inductive Cancelled (s : Stack) (id : ℕ) : Stack → Prop
  | notFound : Cancelled s id s
  | found (i : ℕ) (hi : 1 ≤ i) (hn : i ≤ s.timers.n) (hid : (s.timers.top i).id = id) :
    Cancelled s id { s with
      timers.top := Function.update s.timers.top i { s.timers.top i with tmr := none }
      cancelled := if (s.timers.top i).tmr.isSome then s.cancelled ++ [s.timers.top i]
        else s.cancelled }

theorem picoTimerCancel_spec (s : Stack) (id : ℕ) : Cancelled s id (picoTimerCancel s id) := by
  rw [picoTimerCancel]
  split
  · exact .notFound
  · split
    · exact .notFound
    · rename_i i hfind
      have hrange := List.mem_range'_1.mp (List.mem_of_find?_eq_some hfind)
      exact .found i hrange.1 (by omega) (by simpa using List.find?_some hfind)

theorem queued_first (hn : s.timers.n ≠ 0) : s.timers.top 1 ∈ queued s :=
  mem_contents.mpr ⟨1, le_rfl, by omega, rfl⟩

theorem running_le (h : Inv s) : running s ≤ live s := by
  rw [running]
  split
  · rename_i hc
    obtain ⟨hn, -, hsome⟩ := h.called hc
    exact Multiset.singleton_le.mpr (Multiset.mem_filter.mpr ⟨queued_first hn, hsome⟩)
  · exact Multiset.zero_le _

theorem filter_of_some {e : PicoTimerRef} {m : Multiset PicoTimerRef} (he : e.tmr.isSome) :
    (e ::ₘ m).filter (fun e => e.tmr.isSome) = m.filter (fun e => e.tmr.isSome) + {e} := by
  rw [Multiset.filter_cons_of_pos (p := fun e : PicoTimerRef => e.tmr.isSome) m he,
    ← Multiset.singleton_add, add_comm]

theorem filter_of_none {e : PicoTimerRef} {m : Multiset PicoTimerRef} (he : e.tmr = none) :
    (e ::ₘ m).filter (fun e => e.tmr.isSome) = m.filter (fun e => e.tmr.isSome) :=
  Multiset.filter_cons_of_neg (p := fun e : PicoTimerRef => e.tmr.isSome) m (by simp [he])

theorem live_cons {e : PicoTimerRef} (hq : queued t = e ::ₘ queued s) (he : e.tmr.isSome) :
    live t = live s + {e} := by
  rw [live, hq, filter_of_some he, live]

theorem live_drop {e : PicoTimerRef} (hq : e ::ₘ queued t = queued s) (he : e.tmr.isSome) :
    live s = live t + {e} := live_cons hq.symm he

theorem live_drop_cancelled {e : PicoTimerRef} (hq : e ::ₘ queued t = queued s) (he : e.tmr = none) :
    live s = live t := by
  rw [live, ← hq, filter_of_none he, live]

/-- ADD: the new timer is queued, or lost. -/
theorem Inv.add {now due : ℕ} (h : Inv s) (hdue : s.pc = .calling → s.picoTick ≤ due)
    (ha : Added s now due t) : Inv t := by
  have hsplit := h.split
  cases ha with
  | noMemory => exact ⟨h.wf, hsplit, h.called, h.early⟩
  | lost e tmrId he =>
    refine ⟨h.wf, ?_, h.called, h.early⟩
    simp only [← Multiset.coe_add, Multiset.coe_singleton]
    change s.added + {e} + running s = live s + s.fired.map Prod.snd + s.cancelled + (s.lost + {e})
    rw [add_right_comm, hsplit, ← add_assoc]
  | queued e tmrId timers he hsome hwf hn hcont hroot =>
    have hstay : s.pc = .calling → timers.top 1 = s.timers.top 1 := by
      intro hc
      obtain ⟨hn0, hlt, -⟩ := h.called hc
      have := hdue hc
      exact hroot hn0 (by omega)
    refine ⟨hwf, ?_, ?_, h.early⟩
    · have hlive := live_cons (s := s) (t := { s with timers := timers }) hcont hsome
      have hrun : running { s with timers := timers } = running s := by
        rw [running, running]
        split
        · rename_i hc
          simp only [hstay hc]
        · rfl
      simp only [← Multiset.coe_add, Multiset.coe_singleton]
      change s.added + {e} + running { s with timers := timers } =
        live { s with timers := timers } + s.fired.map Prod.snd + s.cancelled + s.lost
      rw [hrun, hlive, add_right_comm, hsplit]
      abel
    · intro hc
      obtain ⟨-, hlt, hsome⟩ := h.called hc
      simp only [hstay hc, hn]
      exact ⟨Nat.succ_ne_zero _, hlt, hsome⟩

/-- Taking the function out of a timer leaves its expiry. -/
theorem expire_update {i : ℕ} (j : ℕ) :
    (Function.update s.timers.top i { s.timers.top i with tmr := none } j).expire =
      (s.timers.top j).expire := by
  by_cases hj : j = i
  · rw [hj, Function.update_self]
  · rw [Function.update_of_ne hj]

/-- Every queued timer was queued before, but for its function. -/
theorem Cancelled.queued {id : ℕ} (hc : Cancelled s id t) :
    ∀ e ∈ queued t, ∃ e' ∈ queued s, e'.expire = e.expire := by
  cases hc with
  | notFound => exact fun e he => ⟨e, he, rfl⟩
  | found i hi hn hid =>
    intro e he
    obtain ⟨j, hj, hjn, rfl⟩ := mem_contents.mp he
    exact ⟨s.timers.top j, mem_contents.mpr ⟨j, hj, hjn, rfl⟩, (expire_update j).symm⟩

/-- Clearing one entry moves its timer from the live ones to the cancelled ones. -/
theorem live_of_cleared {u : Stack} {e : PicoTimerRef}
    (hqueued : e ::ₘ queued u = { e with tmr := none } ::ₘ queued s)
    (hcancelled : u.cancelled = if e.tmr.isSome then s.cancelled ++ [e] else s.cancelled) :
    live s + (s.cancelled : Multiset PicoTimerRef) = live u + u.cancelled := by
  have hfilter := congrArg (Multiset.filter fun e : PicoTimerRef => e.tmr.isSome) hqueued
  rw [filter_of_none (m := queued s) rfl] at hfilter
  by_cases hsome : e.tmr.isSome
  · rw [if_pos hsome] at hcancelled
    rw [filter_of_some hsome] at hfilter
    rw [live, ← hfilter, live, hcancelled, ← Multiset.coe_add, Multiset.coe_singleton]
    abel
  · rw [if_neg hsome] at hcancelled
    rw [filter_of_none (by simpa using hsome)] at hfilter
    rw [live, ← hfilter, live, hcancelled]

/-- CANCEL: the timer moves from the live ones to the cancelled ones. -/
theorem Inv.cancel {id : ℕ} (h : Inv s) (hown : s.pc = .calling → (s.timers.top 1).id ≠ id)
    (hcancel : Cancelled s id t) : Inv t := by
  cases hcancel with
  | notFound => exact h
  | found i hi hn hid =>
    generalize hu : ({ s with
      timers.top := Function.update s.timers.top i { s.timers.top i with tmr := none }
      cancelled := if (s.timers.top i).tmr.isSome then s.cancelled ++ [s.timers.top i]
        else s.cancelled } : Stack) = u
    have hreplace := contents_replace (n := s.timers.n) (g := s.timers.top) (i := i)
      (x := { s.timers.top i with tmr := none }) hi hn
    have hqueued : s.timers.top i ::ₘ Timers.queued u =
        { s.timers.top i with tmr := none } ::ₘ Timers.queued s := by
      rw [← hu]
      exact hreplace
    have hfirst : s.pc = .calling → u.timers.top 1 = s.timers.top 1 := by
      intro hc
      have hne : (1 : ℕ) ≠ i := by
        rintro rfl
        exact hown hc hid
      rw [← hu]
      exact Function.update_of_ne hne ..
    have hpc : u.pc = s.pc := by rw [← hu]
    have hrun : running u = running s := by
      rw [running, running, hpc]
      split
      · rename_i hc
        rw [hfirst hc]
      · rfl
    have hlive : live s + (s.cancelled : Multiset PicoTimerRef) = live u + u.cancelled :=
      live_of_cleared hqueued (by rw [← hu])
    refine ⟨⟨?_, ?_, ?_⟩, ?_, ?_, ?_⟩
    · intro j hj hjn
      rw [← hu] at hjn ⊢
      simp only [expire_update]
      exact h.wf.ordered j hj hjn
    · rw [← hu]
      exact h.wf.size_le
    · rw [← hu]
      exact h.wf.n_lt
    · have hfired : u.fired = s.fired := by rw [← hu]
      have hadded : u.added = s.added := by rw [← hu]
      have hlost : u.lost = s.lost := by rw [← hu]
      rw [hrun, hfired, hadded, hlost, h.split]
      calc _ = (live s + s.cancelled) + s.fired.map Prod.snd + s.lost := by abel
        _ = _ := by rw [hlive]; abel
    · intro hc
      rw [hpc] at hc
      have htick : u.picoTick = s.picoTick := by rw [← hu]
      have hn' : u.timers.n = s.timers.n := by rw [← hu]
      rw [hfirst hc, htick, hn']
      exact h.called hc
    · rw [← hu]
      exact h.early

theorem pop_spec (h : Inv s) (hn : s.timers.n ≠ 0) :
    ∃ u, pop s = { s with timers := u, pc := .looping } ∧ Wf PicoTimerRef.expire u ∧
      s.timers.top 1 ::ₘ contents u.n u.top = queued s := by
  obtain ⟨u, hpeek, hwf, hcont⟩ := heapPeek_spec h.wf hn
  exact ⟨u, by rw [pop, hpeek], hwf, hcont⟩

/-- POP: nothing but the first timer leaves the heap. -/
theorem Inv.pop (h : Inv s) (hn : s.timers.n ≠ 0)
    (hgone : (s.timers.top 1).tmr = none ∧ s.pc ≠ .calling ∨ s.pc = .calling) : Inv (pop s) := by
  obtain ⟨u, hpop, hwf, hcont⟩ := pop_spec h hn
  rw [hpop]
  refine ⟨hwf, ?_, by simp, h.early⟩
  have hsplit := h.split
  have hzero : running { s with timers := u, pc := .looping } = 0 := by simp [running]
  have hq : s.timers.top 1 ::ₘ queued { s with timers := u, pc := .looping } = queued s := hcont
  rw [hzero, add_zero]
  rcases hgone with ⟨hnone, hnot⟩ | hc
  · rw [live_drop_cancelled hq hnone, running, if_neg hnot, add_zero] at hsplit
    exact hsplit
  · rw [live_drop hq (h.called hc).2.2, running, if_pos hc] at hsplit
    refine add_right_cancel (b := {s.timers.top 1}) ?_
    rw [hsplit]
    abel

/-- What a turn of the loop does: it ends, drops a cancelled timer, or calls a function. -/
inductive Turned (s : Stack) : Stack → Prop
  | ends (hall : ∀ e ∈ queued s, s.picoTick ≤ e.expire) : Turned s { s with pc := .idle }
  | drops (hn : s.timers.n ≠ 0) (hdue : (s.timers.top 1).expire < s.picoTick)
      (hnone : (s.timers.top 1).tmr = none) : Turned s (pop s)
  | calls (hn : s.timers.n ≠ 0) (hdue : (s.timers.top 1).expire < s.picoTick)
      (hsome : (s.timers.top 1).tmr.isSome) : Turned s { s with
      pc := .calling, fired := s.fired ++ [(s.picoTick, s.timers.top 1)] }

theorem turn_spec (h : Wf PicoTimerRef.expire s.timers) : Turned s (turn s) := by
  rw [turn]
  split
  · rename_i hfirst
    refine .ends ?_
    intro e he
    rw [queued, heapFirst_eq_none hfirst, contents_zero] at he
    exact absurd he (Multiset.notMem_zero e)
  · rename_i tref hfirst
    obtain ⟨hn, rfl⟩ := heapFirst_eq_some hfirst
    split
    · rename_i hdue
      split
      · rename_i hnone
        exact .drops hn hdue hnone
      · rename_i timer hsome
        exact .calls hn hdue (by rw [hsome, Option.isSome_some])
    · rename_i hlate
      exact .ends fun e he => (not_lt.mp hlate).trans (h.ordered.root_le_mem he)

theorem Inv.turn (h : Inv s) (hpc : s.pc = .looping) (ht : Turned s t) : Inv t := by
  have hrun : running s = 0 := by rw [running, if_neg (by rw [hpc]; decide)]
  have hsplit := h.split
  rw [hrun, add_zero] at hsplit
  cases ht with
  | ends hall =>
    refine ⟨h.wf, ?_, by simp, h.early⟩
    have hzero : running { s with pc := .idle } = 0 := by simp [running]
    rw [hzero, add_zero]
    exact hsplit
  | drops hn hdue hnone => exact h.pop hn (.inl ⟨hnone, by rw [hpc]; decide⟩)
  | calls hn hdue hsome =>
    refine ⟨h.wf, ?_, fun _ => ⟨hn, hdue, hsome⟩, ?_⟩
    · have hone : running { s with
          pc := .calling, fired := s.fired ++ [(s.picoTick, s.timers.top 1)] } =
          {s.timers.top 1} := by simp [running]
      rw [hone]
      simp only [List.map_append, List.map_cons, List.map_nil, ← Multiset.coe_add,
        Multiset.coe_singleton]
      rw [hsplit, live, live]
      simp only [queued]
      abel
    · intro p hp
      rcases List.mem_append.mp hp with hp | hp
      · exact h.early p hp
      · rw [List.mem_singleton.mp hp]
        exact hdue

/-- STEP: every timer is somewhere. -/
theorem inv_step {a : Act} (h : Inv s) (hc : Sane s a) (hs : step s a = some t) : Inv t := by
  cases a with
  | add now expire timer mem heapMem =>
    simp only [step, Option.ite_none_left_eq_some, Option.some.injEq] at hs
    obtain ⟨-, rfl⟩ := hs
    exact h.add hc (picoTimerAdd_spec h.wf ..)
  | cancel id =>
    simp only [step, Option.ite_none_left_eq_some, Option.some.injEq] at hs
    obtain ⟨-, rfl⟩ := hs
    exact h.cancel hc (picoTimerCancel_spec s id)
  | check now =>
    simp only [step, Option.ite_none_right_eq_some, Option.some.injEq] at hs
    obtain ⟨hidle, rfl⟩ := hs
    refine ⟨h.wf, ?_, by simp, h.early⟩
    have hsplit := h.split
    rw [running, if_neg (by rw [hidle]; decide)] at hsplit
    rw [running, if_neg (by simp)]
    exact hsplit
  | turn =>
    simp only [step, Option.ite_none_right_eq_some, Option.some.injEq] at hs
    obtain ⟨hpc, rfl⟩ := hs
    exact h.turn hpc (turn_spec h.wf)
  | ret =>
    simp only [step, Option.ite_none_right_eq_some, Option.some.injEq] at hs
    obtain ⟨hpc, rfl⟩ := hs
    exact h.pop (h.called hpc).1 (.inr hpc)

theorem inv_begin : Inv begin := by
  refine ⟨wf_heapInit, ?_, by simp [begin], by simp [begin]⟩
  simp [begin, running, live, queued, heapInit]

variable {l : List (ℕ × PicoTimerRef)}

theorem inOrder_nil (s : Stack) : InOrder [] s := ⟨List.Pairwise.nil, by simp⟩

/-- Where everything queued was queued before. -/
theorem InOrder.of_queued (h : InOrder l s)
    (hq : ∀ e ∈ queued t, ∃ e' ∈ queued s, e'.expire = e.expire) : InOrder l t := by
  refine ⟨h.sorted, ?_⟩
  intro p hp e he
  obtain ⟨e', he', hexp⟩ := hq e he
  exact hexp ▸ h.behind p hp e' he'

theorem InOrder.add {now due : ℕ} (h : InOrder l s) (hdue : ∀ p ∈ l, p.2.expire ≤ due)
    (ha : Added s now due t) : InOrder l t := by
  cases ha with
  | noMemory | lost => exact ⟨h.sorted, h.behind⟩
  | queued e tmrId timers he hsome hwf hn hcont hroot =>
    refine ⟨h.sorted, ?_⟩
    intro p hp e' he'
    have he' : e' ∈ e ::ₘ queued s := hcont ▸ he'
    rcases Multiset.mem_cons.mp he' with rfl | he'
    · exact he ▸ hdue p hp
    · exact h.behind p hp e' he'

theorem InOrder.pop (h : InOrder l s) (hinv : Inv s) (hn : s.timers.n ≠ 0) :
    InOrder l (pop s) := by
  obtain ⟨u, hpop, -, hcont⟩ := pop_spec hinv hn
  rw [hpop]
  refine ⟨h.sorted, ?_⟩
  intro p hp e he
  have he : e ∈ contents u.n u.top := he
  exact h.behind p hp e (hcont ▸ Multiset.mem_cons_of_mem he)

/-- CALL: the next timer called is the first of the heap. -/
theorem InOrder.call (h : InOrder l s) (hwf : Wf PicoTimerRef.expire s.timers)
    (hn : s.timers.n ≠ 0) (hq : queued t = queued s) :
    InOrder (l ++ [(s.picoTick, s.timers.top 1)]) t := by
  refine ⟨List.pairwise_append.mpr ⟨h.sorted, List.pairwise_singleton .., ?_⟩, ?_⟩
  · intro p hp q hq
    rw [List.mem_singleton.mp hq]
    exact h.behind p hp _ (queued_first hn)
  · intro p hp e he
    rw [hq] at he
    rcases List.mem_append.mp hp with hp | hp
    · exact h.behind p hp e he
    · rw [List.mem_singleton.mp hp]
      exact hwf.ordered.root_le_mem he

/-- What holds besides while the clock does not go back: the calls of the whole run are in order. -/
structure Chronicle (s : Stack) : Prop where
  inv : Inv s
  order : InOrder s.fired s
  tick_le : s.picoTick ≤ s.clock
  ticks : ∀ p ∈ s.fired, p.1 ≤ s.picoTick

theorem Chronicle.pop (h : Chronicle s) (hinv : Inv (pop s)) (hn : s.timers.n ≠ 0) :
    Chronicle (pop s) := by
  obtain ⟨u, hpop, -, -⟩ := pop_spec h.inv hn
  have horder := h.order.pop h.inv hn
  rw [hpop] at hinv horder ⊢
  exact ⟨hinv, horder, h.tick_le, h.ticks⟩

theorem chronicle_step {a : Act} (h : Chronicle s) (hc : Sane s a ∧ Forward s a)
    (hs : step s a = some t) : Chronicle t := by
  have hinv := inv_step h.inv hc.1 hs
  cases a with
  | add now expire timer mem heapMem =>
    simp only [step, Option.ite_none_left_eq_some, Option.some.injEq] at hs
    obtain ⟨-, rfl⟩ := hs
    obtain ⟨hclock, hfit⟩ := hc.2
    have hspec := picoTimerAdd_spec h.inv.wf now expire timer mem heapMem
    rw [Nat.mod_eq_of_lt hfit] at hspec
    generalize (picoTimerAdd s now expire timer mem heapMem).2 = u at hspec hinv
    have horder : InOrder s.fired u := by
      refine h.order.add ?_ hspec
      intro p hp
      have := h.inv.early p hp
      have := h.ticks p hp
      have := h.tick_le
      omega
    cases hspec with
    | noMemory => exact ⟨hinv, horder, h.tick_le, h.ticks⟩
    | lost | queued => exact ⟨hinv, horder, h.tick_le.trans hclock, h.ticks⟩
  | cancel id =>
    simp only [step, Option.ite_none_left_eq_some, Option.some.injEq] at hs
    obtain ⟨-, rfl⟩ := hs
    have hspec := picoTimerCancel_spec s id
    generalize picoTimerCancel s id = u at hspec hinv
    have horder : InOrder s.fired u := h.order.of_queued hspec.queued
    cases hspec with
    | notFound | found => exact ⟨hinv, horder, h.tick_le, h.ticks⟩
  | check now =>
    simp only [step, Option.ite_none_right_eq_some, Option.some.injEq] at hs
    obtain ⟨-, rfl⟩ := hs
    refine ⟨hinv, ⟨h.order.sorted, h.order.behind⟩, le_rfl, ?_⟩
    intro p hp
    exact (h.ticks p hp).trans (h.tick_le.trans hc.2)
  | turn =>
    simp only [step, Option.ite_none_right_eq_some, Option.some.injEq] at hs
    obtain ⟨-, rfl⟩ := hs
    have hspec := turn_spec h.inv.wf
    generalize turn s = u at hspec hinv
    cases hspec with
    | ends hall => exact ⟨hinv, ⟨h.order.sorted, h.order.behind⟩, h.tick_le, h.ticks⟩
    | drops hn hdue hnone => exact h.pop hinv hn
    | calls hn hdue hsome =>
      refine ⟨hinv, h.order.call h.inv.wf hn rfl, h.tick_le, ?_⟩
      intro p hp
      rcases List.mem_append.mp hp with hp | hp
      · exact h.ticks p hp
      · rw [List.mem_singleton.mp hp]
  | ret =>
    simp only [step, Option.ite_none_right_eq_some, Option.some.injEq] at hs
    obtain ⟨hpc, rfl⟩ := hs
    exact h.pop hinv (h.inv.called hpc).1

/-- The timers called since `f` was all that had been called: they are in order. -/
structure Pass (f : List (ℕ × PicoTimerRef)) (s : Stack) : Prop where
  inv : Inv s
  since : ∃ l, s.fired = f ++ l ∧ (l.Pairwise fun p q => p.2.expire ≤ q.2.expire) ∧
    (s.pc ≠ .idle → InOrder l s ∧ ∀ p ∈ l, p.2.expire < s.picoTick)

/-- STEP: whatever the functions do that are called, the order is kept. -/
theorem pass_step {f : List (ℕ × PicoTimerRef)} {a : Act} (h : Pass f s)
    (hc : Sane s a ∧ ∀ now, a ≠ .check now) (hs : step s a = some t) : Pass f t := by
  have hinv := inv_step h.inv hc.1 hs
  obtain ⟨l, hfired, hsorted, horder⟩ := h.since
  cases a with
  | add now expire timer mem heapMem =>
    simp only [step, Option.ite_none_left_eq_some, Option.some.injEq] at hs
    obtain ⟨hpc, rfl⟩ := hs
    have hspec := picoTimerAdd_spec h.inv.wf now expire timer mem heapMem
    generalize (picoTimerAdd s now expire timer mem heapMem).2 = u at hspec hinv
    have hkept : s.pc ≠ .idle → InOrder l u ∧ ∀ p ∈ l, p.2.expire < s.picoTick := by
      intro hidle
      have hcall : s.pc = .calling := by
        cases hp : s.pc with
        | idle => exact absurd hp hidle
        | looping => exact absurd hp hpc
        | calling => rfl
      obtain ⟨hin, hlt⟩ := horder hidle
      exact ⟨hin.add (fun p hp => (hlt p hp).le.trans (hc.1 hcall)) hspec, hlt⟩
    cases hspec with
    | noMemory | lost | queued => exact ⟨hinv, l, hfired, hsorted, hkept⟩
  | cancel id =>
    simp only [step, Option.ite_none_left_eq_some, Option.some.injEq] at hs
    obtain ⟨-, rfl⟩ := hs
    have hspec := picoTimerCancel_spec s id
    generalize picoTimerCancel s id = u at hspec hinv
    have hkept : s.pc ≠ .idle → InOrder l u ∧ ∀ p ∈ l, p.2.expire < s.picoTick :=
      fun hidle => ⟨(horder hidle).1.of_queued hspec.queued, (horder hidle).2⟩
    cases hspec with
    | notFound | found => exact ⟨hinv, l, hfired, hsorted, hkept⟩
  | check now => exact absurd rfl (hc.2 now)
  | turn =>
    simp only [step, Option.ite_none_right_eq_some, Option.some.injEq] at hs
    obtain ⟨hpc, rfl⟩ := hs
    obtain ⟨hin, hlt⟩ := horder (by rw [hpc]; decide)
    have hspec := turn_spec h.inv.wf
    generalize turn s = u at hspec hinv
    cases hspec with
    | ends hall => exact ⟨hinv, l, hfired, hsorted, fun hidle => absurd rfl hidle⟩
    | drops hn hdue hnone =>
      obtain ⟨v, hpop, -, -⟩ := pop_spec h.inv hn
      have hkept := hin.pop h.inv hn
      rw [hpop] at hinv hkept ⊢
      exact ⟨hinv, l, hfired, hsorted, fun _ => ⟨hkept, hlt⟩⟩
    | calls hn hdue hsome =>
      have hcall := hin.call (t := { s with
        pc := .calling, fired := s.fired ++ [(s.picoTick, s.timers.top 1)] }) h.inv.wf hn rfl
      refine ⟨hinv, _, ?_, hcall.sorted, fun _ => ⟨hcall, ?_⟩⟩
      · simp only [hfired, List.append_assoc]
      · intro p hp
        rcases List.mem_append.mp hp with hp | hp
        · exact hlt p hp
        · rw [List.mem_singleton.mp hp]
          exact hdue
  | ret =>
    simp only [step, Option.ite_none_right_eq_some, Option.some.injEq] at hs
    obtain ⟨hpc, rfl⟩ := hs
    obtain ⟨hin, hlt⟩ := horder (by rw [hpc]; decide)
    have hn := (h.inv.called hpc).1
    obtain ⟨v, hpop, -, -⟩ := pop_spec h.inv hn
    have hkept := hin.pop h.inv hn
    rw [hpop] at hinv hkept ⊢
    exact ⟨hinv, l, hfired, hsorted, fun _ => ⟨hkept, hlt⟩⟩

/-- The identifiers given so far are 1, 2, 3, …, while there are enough of them. -/
def Numbered (s : Stack) : Prop :=
  s.added.length < 2 ^ 32 - 1 → s.added.map PicoTimerRef.id = List.range' 1 s.added.length ∧
    (s.tmrId = s.added.length + 1 ∨ s.added = [] ∧ s.tmrId = 0)

theorem Numbered.of_eq (h : Numbered s) (hadded : t.added = s.added) (hid : t.tmrId = s.tmrId) :
    Numbered t := by
  rw [Numbered, hadded, hid]
  exact h

theorem pop_frame (s : Stack) : (pop s).added = s.added ∧ (pop s).tmrId = s.tmrId := by
  rw [pop]
  split <;> exact ⟨rfl, rfl⟩

theorem turn_frame (s : Stack) : (turn s).added = s.added ∧ (turn s).tmrId = s.tmrId := by
  rw [turn]
  split
  · exact ⟨rfl, rfl⟩
  · split
    · split
      · exact pop_frame s
      · exact ⟨rfl, rfl⟩
    · exact ⟨rfl, rfl⟩

theorem picoTimerCancel_frame (s : Stack) (id : ℕ) :
    (picoTimerCancel s id).added = s.added ∧ (picoTimerCancel s id).tmrId = s.tmrId := by
  rw [picoTimerCancel]
  split
  · exact ⟨rfl, rfl⟩
  · split
    · exact ⟨rfl, rfl⟩
    · exact ⟨rfl, rfl⟩

theorem Numbered.add {now expire : ℕ} {timer : PicoTimer} {mem heapMem : Bool} (h : Numbered s) :
    Numbered (picoTimerAdd s now expire timer mem heapMem).2 := by
  rw [picoTimerAdd]
  split
  · intro hlen
    obtain ⟨hids, hid | ⟨hnil, hid⟩⟩ := h hlen
    · exact ⟨hids, .inl (by simp only [hid, if_neg (Nat.succ_ne_zero _)])⟩
    · exact ⟨hids, .inl (by simp [hid, hnil])⟩
  · intro hlen
    simp only [List.length_append, List.length_singleton] at hlen
    obtain ⟨hids, hid⟩ := h (by omega)
    have hnew : (if s.tmrId = 0 then 1 else s.tmrId) = s.added.length + 1 := by
      rcases hid with hid | ⟨hnil, hid⟩
      · rw [hid, if_neg (Nat.succ_ne_zero _)]
      · rw [hid, hnil, if_pos rfl, List.length_nil]
    simp only [hnew, List.map_append, List.map_cons, List.map_nil, List.length_append,
      List.length_singleton, hids]
    refine ⟨?_, .inl (Nat.mod_eq_of_lt (by omega))⟩
    rw [List.range'_1_concat, Nat.add_comm]

theorem numbered_step {a : Act} (h : Numbered s) (hs : step s a = some t) : Numbered t := by
  cases a with
  | add now expire timer mem heapMem =>
    simp only [step, Option.ite_none_left_eq_some, Option.some.injEq] at hs
    exact hs.2 ▸ h.add
  | cancel id =>
    simp only [step, Option.ite_none_left_eq_some, Option.some.injEq] at hs
    exact hs.2 ▸ h.of_eq (picoTimerCancel_frame s id).1 (picoTimerCancel_frame s id).2
  | check now =>
    simp only [step, Option.ite_none_right_eq_some, Option.some.injEq] at hs
    exact hs.2 ▸ h.of_eq rfl rfl
  | turn =>
    simp only [step, Option.ite_none_right_eq_some, Option.some.injEq] at hs
    exact hs.2 ▸ h.of_eq (turn_frame s).1 (turn_frame s).2
  | ret =>
    simp only [step, Option.ite_none_right_eq_some, Option.some.injEq] at hs
    exact hs.2 ▸ h.of_eq (pop_frame s).1 (pop_frame s).2

section Runs
variable {as bs : List Act}

theorem inv_run (hm : Meets step Sane begin as) (hr : run step begin as = some s) : Inv s :=
  run_keeps (I := Inv) (fun _ _ _ => inv_step) inv_begin hm hr

theorem pending_add_running (h : Inv s) : pending s + running s = live s :=
  Multiset.sub_add_cancel (running_le h)

/-- EXACTLY ONCE: every timer waits, was called once, was cancelled or found no memory, and none of
    this twice. None is called early, and when a check ends none is overdue; over a run in which the
    clock does not go back they are called in the order of their expiry. -/
theorem timers_exact (hm : Meets step Sane begin as) (hr : run step begin as = some s) :
    (s.added : Multiset PicoTimerRef) = pending s + s.fired.map Prod.snd + s.cancelled + s.lost ∧
      (s.added.length < 2 ^ 32 - 1 → (s.added.map PicoTimerRef.id).Nodup) ∧
      (∀ p ∈ s.fired, p.2.expire < p.1) ∧
      (∀ t, step s .turn = some t → t.pc = .idle → ∀ e ∈ queued t, t.picoTick ≤ e.expire) ∧
      (Meets step Forward begin as → s.fired.Pairwise fun p q => p.2.expire ≤ q.2.expire) := by
  have h := inv_run hm hr
  have hn : Numbered s :=
    run_invariant (I := Numbered) (fun _ _ _ => numbered_step) (fun _ => ⟨rfl, .inr ⟨rfl, rfl⟩⟩) hr
  refine ⟨?_, ?_, h.early, ?_, ?_⟩
  · refine add_right_cancel (b := running s) ?_
    rw [h.split, ← pending_add_running h]
    abel
  · intro hlen
    rw [(hn hlen).1]
    exact List.nodup_range'
  · intro t ht hidle
    simp only [step, Option.ite_none_right_eq_some, Option.some.injEq] at ht
    obtain ⟨hpc, rfl⟩ := ht
    have hspec := turn_spec h.wf
    generalize turn s = u at hspec hidle
    cases hspec with
    | ends hall => exact hall
    | drops hnz =>
      obtain ⟨v, hpop, -, -⟩ := pop_spec h hnz
      rw [hpop] at hidle
      cases hidle
    | calls => cases hidle
  · intro hforward
    have hstart : Chronicle begin := ⟨inv_begin, inOrder_nil begin, le_rfl, by simp [begin]⟩
    have hend : Chronicle s :=
      run_keeps (I := Chronicle) (fun _ _ _ => chronicle_step) hstart (hm.and hforward) hr
    exact hend.order.sorted

/-- Two timers; the function of the first one adds a third and cancels the second. -/
def rearm : List Act := [.add 0 5 ⟨1, 0⟩ true true, .add 1 9 ⟨2, 0⟩ true true, .check 20]

def rearmPass : List Act :=
  [.turn, .add 20 0 ⟨3, 0⟩ true true, .cancel 2, .ret, .turn, .turn]

theorem timers_exact_rearm :
    ∃ s, run step begin (rearm ++ rearmPass) = some s ∧ s.fired = [(20, ⟨5, 1, some ⟨1, 0⟩⟩)] ∧
      s.cancelled = [⟨10, 2, some ⟨2, 0⟩⟩] ∧ s.pc = .idle ∧
      (s.added : Multiset PicoTimerRef) = pending s + s.fired.map Prod.snd + s.cancelled + s.lost ∧
      (s.added.length < 2 ^ 32 - 1 → (s.added.map PicoTimerRef.id).Nodup) ∧
      (∀ p ∈ s.fired, p.2.expire < p.1) ∧
      (∀ t, step s .turn = some t → t.pc = .idle → ∀ e ∈ queued t, t.picoTick ≤ e.expire) ∧
      (Meets step Forward begin (rearm ++ rearmPass) →
        s.fired.Pairwise fun p q => p.2.expire ≤ q.2.expire) :=
  ⟨_, rfl, rfl, rfl, rfl, timers_exact (by decide) rfl⟩

/-- Timers that have expired and are still in the heap. -/
def due (s : Stack) : ℕ := ((queued s).filter fun e => e.expire < s.picoTick).card

/-- Turns that the loop can still take. -/
def turnsLeft (s : Stack) : ℕ :=
  match s.pc with
  | .idle => 0
  | .looping => due s + 1
  | .calling => due s

theorem due_pop (h : Inv s) (hn : s.timers.n ≠ 0) (hdue : (s.timers.top 1).expire < s.picoTick) :
    due (pop s) + 1 = due s := by
  obtain ⟨u, hpop, -, hcont⟩ := pop_spec h hn
  rw [hpop, due, due, ← hcont,
    Multiset.filter_cons_of_pos (p := fun e : PicoTimerRef => e.expire < s.picoTick) _ hdue,
    Multiset.card_cons]
  rfl

theorem due_add {now d : ℕ} (hlate : s.picoTick ≤ d) (ha : Added s now d t) : due t = due s := by
  cases ha with
  | noMemory | lost => rfl
  | queued e tmrId timers he hsome hwf hn hcont hroot =>
    simp only [due, queued, hcont]
    rw [Multiset.filter_cons_of_neg]
    omega

theorem due_cancel {id : ℕ} (hc : Cancelled s id t) : due t = due s := by
  cases hc with
  | notFound => rfl
  | found i hi hn hid =>
    simp only [due, queued, contents, Multiset.filter_map, Multiset.card_map]
    congr 1
    refine Multiset.filter_congr ?_
    intro j _
    simp only [Function.comp_apply, expire_update]

/-- Only a turn uses up a turn, and the functions that are called add none. -/
theorem turnsLeft_step {a : Act} (h : Inv s) (hc : Sane s a) (hs : step s a = some t)
    (hcheck : ∀ now, a ≠ .check now) :
    turnsLeft t + (if a = .turn then 1 else 0) ≤ turnsLeft s := by
  cases a with
  | add now expire timer mem heapMem =>
    simp only [step, Option.ite_none_left_eq_some, Option.some.injEq] at hs
    obtain ⟨hpc, rfl⟩ := hs
    have hspec := picoTimerAdd_spec h.wf now expire timer mem heapMem
    generalize (picoTimerAdd s now expire timer mem heapMem).2 = u at hspec
    have hsame : u.pc = s.pc := by cases hspec <;> rfl
    rw [turnsLeft, turnsLeft, hsame]
    cases hp : s.pc with
    | idle => simp
    | looping => exact absurd hp hpc
    | calling => simp [due_add (hc hp) hspec]
  | cancel id =>
    simp only [step, Option.ite_none_left_eq_some, Option.some.injEq] at hs
    obtain ⟨-, rfl⟩ := hs
    have hspec := picoTimerCancel_spec s id
    generalize picoTimerCancel s id = u at hspec
    have hsame : u.pc = s.pc := by cases hspec <;> rfl
    rw [turnsLeft, turnsLeft, hsame, due_cancel hspec]
    simp
  | check now => exact absurd rfl (hcheck now)
  | turn =>
    simp only [step, Option.ite_none_right_eq_some, Option.some.injEq] at hs
    obtain ⟨hpc, rfl⟩ := hs
    have hleft : turnsLeft s = due s + 1 := by rw [turnsLeft, hpc]
    rw [hleft, if_pos rfl]
    have hspec := turn_spec h.wf
    generalize turn s = u at hspec
    cases hspec with
    | ends => simp [turnsLeft]
    | drops hn hdue =>
      have hpop := due_pop h hn hdue
      obtain ⟨v, heq, -, -⟩ := pop_spec h hn
      have hafter : turnsLeft (pop s) = due (pop s) + 1 := by rw [heq, turnsLeft]
      omega
    | calls => exact le_rfl
  | ret =>
    simp only [step, Option.ite_none_right_eq_some, Option.some.injEq] at hs
    obtain ⟨hpc, rfl⟩ := hs
    obtain ⟨hn, hdue, -⟩ := h.called hpc
    have hpop := due_pop h hn hdue
    obtain ⟨v, heq, -, -⟩ := pop_spec h hn
    have hbefore : turnsLeft s = due s := by rw [turnsLeft, hpc]
    have hafter : turnsLeft (pop s) = due (pop s) + 1 := by rw [heq, turnsLeft]
    rw [if_neg (by decide)]
    omega

/-- The turns of a run without a new check are bounded by what is left when it begins. -/
theorem turnsLeft_run (h : Inv s) (hm : Meets step Sane s as) (hr : run step s as = some t)
    (hcheck : ∀ now, .check now ∉ as) : turnsLeft t + as.count .turn ≤ turnsLeft s := by
  induction as generalizing s with
  | nil =>
    rw [run_nil, Option.some.injEq] at hr
    rw [hr, List.count_nil, Nat.add_zero]
  | cons a as ih =>
    obtain ⟨u, hu, hr⟩ := run_cons.mp hr
    rw [meets_cons hu] at hm
    have hfirst := turnsLeft_step h hm.1 hu fun now heq =>
      hcheck now (heq ▸ List.mem_cons_self ..)
    have hrest := ih (inv_step h hm.1 hu) hm.2 hr fun now hmem =>
      hcheck now (List.mem_cons_of_mem a hmem)
    rw [List.count_cons]
    simp only [beq_iff_eq]
    omega

/-- ENDS: from any state that a run gets to, the loop takes at most one turn for each timer that is
    overdue there and a last one, whatever the functions do that it calls: a timer that they add waits
    for the next check. The timers that it calls are in the order of their expiry. -/
theorem pass_bounded (hm : Meets step Sane begin as) (hr : run step begin as = some s)
    (hm' : Meets step Sane s bs) (hr' : run step s bs = some t) (hcheck : ∀ now, .check now ∉ bs) :
    bs.count .turn ≤ due s + 1 ∧
      ∃ l, t.fired = s.fired ++ l ∧ l.Pairwise fun p q => p.2.expire ≤ q.2.expire := by
  have h := inv_run hm hr
  refine ⟨?_, ?_⟩
  · have hturns := turnsLeft_run h hm' hr' hcheck
    have hleft : turnsLeft s ≤ due s + 1 := by
      rw [turnsLeft]
      split <;> omega
    omega
  · have hstart : Pass s.fired s :=
      ⟨h, [], by simp, List.Pairwise.nil, fun _ => ⟨inOrder_nil s, by simp⟩⟩
    have hno : Meets step (fun _ a => ∀ now, a ≠ .check now) s bs :=
      meets_of_forall (P := fun a : Act => ∀ now, a ≠ .check now) fun a ha now heq =>
        hcheck now (heq ▸ ha)
    have hend : Pass s.fired t :=
      run_keeps (I := Pass s.fired) (fun _ _ _ => pass_step) hstart (hm'.and hno) hr'
    obtain ⟨l, hl, hsorted, -⟩ := hend.since
    exact ⟨l, hl, hsorted⟩

theorem pass_bounded_rearm :
    ∃ s t, run step begin rearm = some s ∧ run step s rearmPass = some t ∧
      rearmPass.count .turn ≤ due s + 1 ∧
      ∃ l, t.fired = s.fired ++ l ∧ l.Pairwise fun p q => p.2.expire ≤ q.2.expire := by
  have hm : Meets step Sane begin rearm := by decide
  exact ⟨_, _, rfl, rfl, pass_bounded hm rfl (by decide) rfl (by simp [rearmPass])⟩

end Runs

end FdPicotcp.Timers
