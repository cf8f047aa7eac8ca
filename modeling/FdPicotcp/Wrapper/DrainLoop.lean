import FdPicotcp.Wrapper.Drain
import Mathlib.Algebra.BigOperators.Fin

/-! Does the loop that empties the pipe end, and without waiting?

    One thread reads. The stack thread writes a character before it counts it, the reader takes
    characters before it subtracts them; `Delivering` says where the stack thread stands between the
    two, so counter and pipe are known exactly in every state (`Counted`). From this a read from the
    pipe is only issued when the pipe is not empty, and once no further character is written the loop
    ends with both at zero. -/

namespace FdPicotcp.DrainLoop
open Transition CInt Socket Elem Descriptor Drain

/-- Every character written is counted by the next operation. -/
inductive Paired : List Op → Prop
  | nil : Paired []
  | lookup (ev : BitVec 16) {ops : List Op} (h : Paired ops) : Paired (.lookup ev :: ops)
  | unlockSem (c : Sem) {ops : List Op} (h : Paired ops) : Paired (.unlockSem c :: ops)
  | write {ops : List Op} (h : Paired ops) : Paired (.writePipe :: .incCount :: ops)

/-- The stack thread is between two notifications, or about to count the character it wrote. -/
def Delivering (ops : List Op) : Prop := Paired ops ∨ ∃ rest, ops = .incCount :: rest ∧ Paired rest

/-- A character has been written and not yet counted. -/
def written (e : Entry) : ℕ := if e.todo.head? = some .incCount then 1 else 0

theorem Paired.count {ops : List Op} (h : Paired ops) :
    ops.count .incCount = ops.count .writePipe := by
  induction h with
  | nil => rfl
  | lookup ev h ih => simpa [List.count_cons] using ih
  | unlockSem c h ih => simpa [List.count_cons] using ih
  | write h ih => simpa [List.count_cons] using ih

theorem Paired.append {ops ops' : List Op} (h : Paired ops) (h' : Paired ops') :
    Paired (ops ++ ops') := by
  induction h with
  | nil => exact h'
  | lookup ev h ih => exact .lookup ev ih
  | unlockSem c h ih => exact .unlockSem c ih
  | write h ih => exact .write ih

theorem paired_handleWakeup (found : Bool) (ev : BitVec 16) : Paired (handleWakeup found ev) := by
  cases found with
  | false => exact .nil
  | true =>
    rw [handleWakeup, if_pos rfl]
    refine .append ?_ ?_
    · split
      · exact .unlockSem .accept .nil
      · exact .nil
    · split
      · exact .write (.unlockSem .read .nil)
      · exact .nil

theorem paired_lookup (evs : List (BitVec 16)) : Paired (evs.map .lookup) := by
  induction evs with
  | nil => exact .nil
  | cons ev evs ih => exact .lookup ev ih

theorem Paired.head_ne {ops : List Op} (h : Paired ops) : ops.head? ≠ some .incCount := by
  cases h <;> simp

/-- Where no count is due the list is paired. -/
theorem Delivering.paired {ops : List Op} (h : Delivering ops) (hhead : ops.head? ≠ some .incCount) :
    Paired ops := by
  rcases h with hp | ⟨rest, rfl, -⟩
  · exact hp
  · exact absurd rfl hhead

theorem Delivering.count {e : Entry} (h : Delivering e.todo) :
    e.todo.count .incCount = e.todo.count .writePipe + written e := by
  rcases h with hp | ⟨rest, hrest, hp⟩
  · rw [hp.count, written, if_neg hp.head_ne]
    rfl
  · have hcount := hp.count
    rw [written, hrest]
    simp [hcount]

theorem Delivering.stackStep {e e' : Entry} (h : Delivering e.todo) (hs : stackStep e = some e') :
    Delivering e'.todo := by
  cases stackStep_move hs with
  | post => exact h
  | lookup ev ops hhalf htodo =>
    rw [htodo] at h
    cases h.paired (by simp) with
    | lookup ev hp => exact .inl ((paired_handleWakeup e.inTable ev).append hp)
  | unlockSem c ops hhalf htodo =>
    rw [htodo] at h
    cases h.paired (by simp) with
    | unlockSem c hp => exact .inl hp
  | writePipe ops hhalf htodo hroom =>
    rw [htodo] at h
    cases h.paired (by simp) with
    | write hp => exact .inr ⟨_, rfl, hp⟩
  | incCount ops hhalf htodo =>
    rw [htodo] at h
    rcases h with hp | ⟨rest, hrest, hp⟩
    · cases hp
    · cases hrest
      exact .inl hp

/-- What every run of one reader and the stack thread keeps. -/
structure Counted (d : Desc 1) : Prop where
  balanced : Drain.Balanced d
  delivering : Delivering d.todo
  nonempty : ∀ buf len, d.thread 0 = .drainRead buf len → 0 < d.pipe

/-- THE COUNTER: the pipe, less a character not yet counted, plus the ones not yet subtracted. -/
theorem Counted.count {d : Desc 1} (h : Counted d) :
    d.fdWriteCount = d.pipe - written d.toEntry + drained (d.thread 0) := by
  have hbal := h.balanced
  have hcount := h.delivering.count
  rw [Drain.Balanced, Fin.sum_univ_one] at hbal
  omega

theorem counted_registerOwed (s : PicoSocket) (evs : List (BitVec 16)) :
    Counted (registerOwed s evs 1) where
  balanced := balanced_registerOwed s evs
  delivering := .inl (paired_lookup evs)
  nonempty := fun _ len h => by cases h

theorem counted_threadStep {d d' : Desc 1} (h : Counted d) (hs : threadStep d 0 = some d') :
    Counted d' := by
  have hbal := balanced_threadStep h.balanced hs
  obtain ⟨pc, hpc, hm⟩ := threadStep_move hs
  cases hm with
  | drainTest buf len =>
    refine ⟨hbal, h.delivering, fun _ len' hlen => ?_⟩
    have hcount := h.count
    rw [hpc] at hcount
    by_cases hpos : 0 < d.fdWriteCount
    · change 0 < d.pipe
      simp only [drained] at hcount
      omega
    · rw [if_neg hpos, goto_thread_self] at hlen
      cases hlen
  | sockRead buf len =>
    refine ⟨hbal, h.delivering, fun _ len' hlen => ?_⟩
    simp only [goto_thread_self] at hlen
    split at hlen <;> cases hlen
  | readWait | drainRead | drainCount | readUnlock | readPost | readDone | acceptWait | sockAccept
  | acceptDone =>
    refine ⟨hbal, h.delivering, fun _ len' hlen => ?_⟩
    simp only [goto_thread_self] at hlen
    cases hlen

theorem counted_step {d d' : Desc 1} {a : Act 1} (h : Counted d) (hs : step d a = some d') :
    Counted d' := by
  have hbal := balanced_step h.balanced hs
  cases step_move hs with
  | event e s evs hidle he => exact ⟨hbal, .inl (paired_lookup evs), h.nonempty⟩
  | stack e he =>
    refine ⟨hbal, h.delivering.stackStep he, fun buf len hlen => ?_⟩
    have hpos := h.nonempty buf len hlen
    cases stackStep_move he with
    | writePipe => exact Nat.succ_pos _
    | post | lookup | unlockSem | incCount => exact hpos
  | read p buf len =>
    refine ⟨hbal, h.delivering, fun _ len' hlen => ?_⟩
    rw [Subsingleton.elim p 0, goto_thread_self] at hlen
    cases hlen
  | accept p =>
    refine ⟨hbal, h.delivering, fun _ len' hlen => ?_⟩
    rw [Subsingleton.elim p 0, goto_thread_self] at hlen
    cases hlen
  | thread p d' hs =>
    rw [Subsingleton.elim p 0] at hs
    exact counted_threadStep h hs
  | close b => exact ⟨hbal, h.delivering, h.nonempty⟩

/-- The reader is in the loop. -/
def InLoop : ThreadPc → Prop
  | .drainTest _ _ | .drainRead _ _ | .drainCount _ _ _ => True
  | _ => False

instance : DecidablePred InLoop := fun pc => by unfold InLoop; split <;> infer_instance

/-- The loop is over, and the reader is not about to enter it again. -/
def Past (pc : ThreadPc) : Prop := ¬ InLoop pc ∧ ∀ buf len, pc ≠ .readWait buf len

/-- No character is written, and there is no further call of `read()`. -/
def Quiet (d : Desc 1) : Act 1 → Prop
  | .stack => d.half = none → d.todo.head? ≠ some .writePipe
  | .read .. => False
  | _ => True

/-- The loop is over with nothing left. -/
def Drained (d : Desc 1) : Prop := ¬ InLoop (d.thread 0) ∧ d.fdWriteCount = 0 ∧ d.pipe = 0

/-- How many steps the reader can still make in the loop: three for a character at most. -/
def variant (d : Desc 1) : ℕ :=
  match d.thread 0 with
  | .drainTest _ _ => 3 * d.pipe + 1
  | .drainRead _ _ => 3 * d.pipe
  | .drainCount _ _ _ => 3 * d.pipe + 2
  | _ => 0

theorem variant_le (d : Desc 1) : variant d ≤ 3 * d.pipe + 2 := by
  unfold variant
  split <;> omega

/-- A read from the pipe does not wait: the next step of the loop can be made. -/
theorem Counted.enabled {d : Desc 1} (h : Counted d) (hloop : InLoop (d.thread 0)) :
    ∃ d', threadStep d 0 = some d' := by
  cases hpc : d.thread 0 with
  | drainTest buf len => exact ⟨_, by simp only [threadStep, hpc]; rfl⟩
  | drainRead buf len =>
    exact ⟨_, by simp only [threadStep, hpc, if_pos (h.nonempty buf len hpc)]; rfl⟩
  | drainCount buf len k => exact ⟨_, by simp only [threadStep, hpc]; rfl⟩
  | _ => rw [hpc] at hloop; exact hloop.elim

/-- STEP: a step of the loop uses up the variant, or ends it with nothing left. -/
theorem loop_thread {d d' : Desc 1} (h : Counted d) (hp : Paired d.todo)
    (hloop : InLoop (d.thread 0)) (hs : threadStep d 0 = some d') :
    (InLoop (d'.thread 0) ∧ variant d' + 1 ≤ variant d) ∨
      (Past (d'.thread 0) ∧ d'.fdWriteCount = 0 ∧ d'.pipe = 0) := by
  have hcount := h.count
  rw [written, if_neg hp.head_ne] at hcount
  obtain ⟨pc, hpc, hm⟩ := threadStep_move hs
  rw [hpc] at hloop hcount
  cases hm with
  | drainTest buf len =>
    simp only [drained] at hcount
    by_cases hpos : 0 < d.fdWriteCount
    · refine .inl ?_
      rw [if_pos hpos, goto_thread_self]
      refine ⟨trivial, ?_⟩
      simp [variant, hpc]
    · refine .inr ?_
      rw [if_neg hpos, goto_thread_self]
      have hzero : d.fdWriteCount = 0 ∧ d.pipe = 0 := by omega
      exact ⟨⟨id, by simp⟩, hzero⟩
  | drainRead buf len hpos =>
    refine .inl ?_
    simp only [goto_thread_self]
    refine ⟨trivial, ?_⟩
    simp only [variant, hpc, goto_thread_self]
    omega
  | drainCount buf len k =>
    refine .inl ?_
    simp only [goto_thread_self]
    refine ⟨trivial, ?_⟩
    simp [variant, hpc]
  | readWait | sockRead | readUnlock | readPost | readDone | acceptWait | sockAccept
  | acceptDone => exact hloop.elim

/-- Behind the loop a thread touches neither counter nor pipe. -/
theorem past_thread {d d' : Desc 1} (h : Past (d.thread 0)) (hs : threadStep d 0 = some d') :
    Past (d'.thread 0) ∧ d'.fdWriteCount = d.fdWriteCount ∧ d'.pipe = d.pipe := by
  obtain ⟨pc, hpc, hm⟩ := threadStep_move hs
  rw [hpc] at h
  cases hm with
  | readWait buf len => exact absurd rfl (h.2 buf len)
  | drainTest | drainRead | drainCount => exact absurd trivial h.1
  | sockRead buf len =>
    refine ⟨?_, rfl, rfl⟩
    simp only [goto_thread_self]
    split <;> exact ⟨id, fun _ len' => nofun⟩
  | readUnlock | readPost | readDone | acceptWait | sockAccept | acceptDone =>
    refine ⟨?_, rfl, rfl⟩
    simp only [goto_thread_self]
    exact ⟨id, fun _ len' => nofun⟩

theorem quiet_stack {e e' : Entry} (hp : Paired e.todo)
    (hq : e.half = none → e.todo.head? ≠ some .writePipe) (hs : stackStep e = some e') :
    Paired e'.todo ∧ e'.fdWriteCount = e.fdWriteCount ∧ e'.pipe = e.pipe := by
  have hdeliv : Delivering e'.todo := Delivering.stackStep (.inl hp) hs
  cases stackStep_move hs with
  | post => exact ⟨hp, rfl, rfl⟩
  | lookup ev ops hhalf htodo =>
    rw [htodo] at hp
    cases hp with
    | lookup ev hp => exact ⟨(paired_handleWakeup e.inTable ev).append hp, rfl, rfl⟩
  | unlockSem c ops hhalf htodo =>
    rw [htodo] at hp
    cases hp with
    | unlockSem c hp => exact ⟨hp, rfl, rfl⟩
  | writePipe ops hhalf htodo => exact absurd (by rw [htodo]; rfl) (hq hhalf)
  | incCount ops hhalf htodo => exact absurd (by rw [htodo]; rfl) hp.head_ne

/-- A quiet step of another party leaves the loop where it is. -/
theorem quiet_other {d d' : Desc 1} {a : Act 1} (hp : Paired d.todo) (hloop : ¬ d.thread 0 = .away)
    (hq : Quiet d a) (hne : a ≠ .thread 0) (hs : step d a = some d') :
    Paired d'.todo ∧ d'.thread = d.thread ∧ d'.fdWriteCount = d.fdWriteCount ∧ d'.pipe = d.pipe := by
  cases step_move hs with
  | event e s evs hidle he => exact ⟨paired_lookup evs, rfl, rfl, rfl⟩
  | stack e he =>
    obtain ⟨hp', hcount, hpipe⟩ := quiet_stack hp hq he
    exact ⟨hp', rfl, hcount, hpipe⟩
  | read p buf len => exact hq.elim
  | accept p hin haway => exact absurd (Subsingleton.elim p 0 ▸ haway) hloop
  | thread p => exact absurd (by rw [Subsingleton.elim p 0]) hne
  | close b => exact ⟨hp, rfl, rfl, rfl⟩

theorem threadStep_todo {d d' : Desc 1} (hs : threadStep d 0 = some d') : d'.todo = d.todo := by
  obtain ⟨pc, hpc, hm⟩ := threadStep_move hs
  cases hm <;> rfl

/-- Behind the loop quiet steps keep counter and pipe at zero. -/
theorem past_step {d d' : Desc 1} {a : Act 1}
    (h : Paired d.todo ∧ Past (d.thread 0) ∧ d.fdWriteCount = 0 ∧ d.pipe = 0) (hq : Quiet d a)
    (hs : step d a = some d') :
    Paired d'.todo ∧ Past (d'.thread 0) ∧ d'.fdWriteCount = 0 ∧ d'.pipe = 0 := by
  obtain ⟨hp, hpast, hzero⟩ := h
  cases step_move hs with
  | event e s evs hidle he => exact ⟨paired_lookup evs, hpast, hzero⟩
  | stack e he =>
    obtain ⟨hp', hcount, hpipe⟩ := quiet_stack hp hq he
    exact ⟨hp', hpast, hcount.trans hzero.1, hpipe.trans hzero.2⟩
  | read p buf len => exact hq.elim
  | accept p =>
    refine ⟨hp, ?_, hzero⟩
    rw [Subsingleton.elim p 0, goto_thread_self]
    exact ⟨id, fun len => nofun⟩
  | thread p d' hs =>
    rw [Subsingleton.elim p 0] at hs
    obtain ⟨hpast', hcount, hpipe⟩ := past_thread hpast hs
    exact ⟨by rwa [(threadStep_todo hs)], hpast', hcount.trans hzero.1, hpipe.trans hzero.2⟩
  | close b => exact ⟨hp, hpast, hzero⟩

/-- RUN: under quiet steps the reader is still in the loop and every step it made used up the
    variant, or the loop is over with nothing left. -/
theorem loop_run {d d' : Desc 1} {bs : List (Act 1)} (h : Counted d) (hp : Paired d.todo)
    (hloop : InLoop (d.thread 0)) (hm : Meets step Quiet d bs) (hr : run step d bs = some d') :
    (InLoop (d'.thread 0) ∧ Counted d' ∧ bs.count (.thread 0) + variant d' ≤ variant d) ∨
      Drained d' := by
  induction bs generalizing d with
  | nil =>
    rw [run_nil, Option.some.injEq] at hr
    subst hr
    exact .inl ⟨hloop, h, by simp⟩
  | cons a bs ih =>
    obtain ⟨u, hu, hr'⟩ := run_cons.mp hr
    obtain ⟨hq, hm'⟩ := (meets_cons hu).mp hm
    have hcu := counted_step h hu
    by_cases ha : a = .thread 0
    · subst ha
      have hpu : Paired u.todo := by rwa [threadStep_todo hu]
      rcases loop_thread h hp hloop hu with ⟨hloop', hvar⟩ | ⟨hpast, hzero⟩
      · rcases ih hcu hpu hloop' hm' hr' with ⟨hend, hcd, hle⟩ | hdrained
        · refine .inl ⟨hend, hcd, ?_⟩
          rw [List.count_cons_self]
          omega
        · exact .inr hdrained
      · obtain ⟨-, hpast', hzero'⟩ := run_keeps (fun _ _ _ hi hq hs => past_step hi hq hs)
          ⟨hpu, hpast, hzero⟩ hm' hr'
        exact .inr ⟨hpast'.1, hzero'⟩
    · have haway : ¬ d.thread 0 = .away := fun haway => by rw [haway] at hloop; exact hloop
      obtain ⟨hpu, hthread, -, hpipe⟩ := quiet_other hp haway hq ha hu
      have hvar : variant u = variant d := by rw [variant, variant, hthread, hpipe]
      rcases ih hcu hpu (by rwa [hthread]) hm' hr' with ⟨hend, hcd, hle⟩ | hdrained
      · refine .inl ⟨hend, hcd, ?_⟩
        rw [List.count_cons_of_ne ha]
        omega
      · exact .inr hdrained

/-- The steps of the reader alone end the loop. -/
theorem loop_ends {d : Desc 1} (h : Counted d) (hp : Paired d.todo) (hloop : InLoop (d.thread 0)) :
    ∃ m d', run step d (List.replicate m (.thread 0)) = some d' ∧ Drained d' := by
  induction hv : variant d using Nat.strong_induction_on generalizing d with
  | _ v ih =>
    obtain ⟨u, hu⟩ := h.enabled hloop
    rcases loop_thread h hp hloop hu with ⟨hloop', hvar⟩ | ⟨hpast, hzero⟩
    · obtain ⟨m, d', hr, hdrained⟩ := ih (variant u) (by omega) (counted_threadStep h hu)
        (by rwa [threadStep_todo hu]) hloop' rfl
      exact ⟨m + 1, d', run_cons.mpr ⟨u, hu, hr⟩, hdrained⟩
    · exact ⟨1, u, run_cons.mpr ⟨u, hu, rfl⟩, hpast.1, hzero⟩

/-- The loop ends: the reader's next step is never held up, it makes a bounded number of them however
    the quiet steps of the others fall in between, and its own steps alone lead out. -/
structure Ends (d : Desc 1) : Prop where
  bounded : ∀ bs d', Meets step Quiet d bs → run step d bs = some d' →
    (InLoop (d'.thread 0) ∧ (step d' (.thread 0)).isSome ∧ bs.count (.thread 0) ≤ 3 * d.pipe + 2) ∨
      Drained d'
  reached : ∃ m d', run step d (List.replicate m (.thread 0)) = some d' ∧ Drained d'

/-- THE LOOP: in every state that one reader and the stack thread reach, counter and pipe agree up
    to what is half done, a read from the pipe finds a character, and the loop ends. -/
theorem drain_loop {s : PicoSocket} {evs : List (BitVec 16)} {as : List (Act 1)} {d : Desc 1}
    (hr : run step (registerOwed s evs 1) as = some d) :
    d.fdWriteCount = d.pipe - written d.toEntry + drained (d.thread 0) ∧
      (∀ buf len, d.thread 0 = .drainRead buf len → 0 < d.pipe) ∧
      (InLoop (d.thread 0) → written d.toEntry = 0 → Ends d) := by
  have h : Counted d := run_invariant (fun _ _ _ hi hs => counted_step hi hs)
    (counted_registerOwed s evs) hr
  refine ⟨h.count, h.nonempty, fun hloop hw => ?_⟩
  have hp : Paired d.todo := h.delivering.paired fun hhead => by simp [written, hhead] at hw
  refine ⟨fun bs d' hm hr' => ?_, loop_ends h hp hloop⟩
  rcases loop_run h hp hloop hm hr' with ⟨hend, hcd, hle⟩ | hdrained
  · obtain ⟨u, hu⟩ := hcd.enabled hend
    have hv := variant_le d
    exact .inl ⟨hend, Option.isSome_iff_exists.mpr ⟨u, hu⟩, by omega⟩
  · exact .inr hdrained

/-- Three bytes arrive and are announced, and a reader has found a character to take. -/
def loopEntered : List (Act 1) :=
  .event (.segment (.ofBytes 0 [1, 2, 3]) 0) :: List.replicate 5 .stack ++
    .read 0 .valid 2 :: List.replicate 2 (.thread 0)

theorem loopEntered_runs :
    (run step (registerOwed (connectedSocket 0) [] 1) loopEntered).isSome := by decide +kernel

theorem drain_loop_entered : 0 < (Option.get _ loopEntered_runs).pipe ∧
    Ends (Option.get _ loopEntered_runs) := by
  obtain ⟨-, hread, hends⟩ := drain_loop (Option.some_get loopEntered_runs).symm
  exact ⟨hread .valid 2 (by decide +kernel), hends (by decide +kernel) (by decide +kernel)⟩

end FdPicotcp.DrainLoop
