import Mathlib.Data.Fintype.Basic
import FdPicotcp.Wrapper.Descriptor

/-! The loop that empties the pipe: `while (l->fd_write_count > 0)` reads ten characters at a time.

    The counter and the pipe are changed in separate steps, by the stack thread in one order and by
    the readers in the other. What they differ by is what is in progress (`Balanced`), so in an idle
    state they agree and a reader leaves the loop without waiting (`drain_passes`). -/

namespace FdPicotcp.Drain
open Transition CInt Socket Elem Descriptor

variable {n : ℕ}

/-- Characters taken out of the pipe and not yet out of the counter. -/
def drained : ThreadPc → ℕ
  | .drainCount _ _ k => k
  | _ => 0

/-- The counter is the pipe, but for what is in progress. -/
def Balanced (d : Desc n) : Prop :=
  d.fdWriteCount + d.todo.count .incCount =
    d.pipe + d.todo.count .writePipe + (∑ p, drained (d.thread p) : ℕ)

theorem count_handleWakeup (found : Bool) (ev : BitVec 16) :
    (handleWakeup found ev).count .incCount = (handleWakeup found ev).count .writePipe := by
  cases found with
  | false => rfl
  | true =>
    rw [handleWakeup, if_pos rfl]
    split <;> split <;> rfl

theorem count_lookup (op : Op) (h : op = .incCount ∨ op = .writePipe) (evs : List (BitVec 16)) :
    (evs.map Op.lookup).count op = 0 := by
  rw [List.count_eq_zero]
  intro hmem
  obtain ⟨ev, -, rfl⟩ := List.mem_map.mp hmem
  rcases h with h | h <;> cases h

theorem balanced_registerOwed (s : PicoSocket) (evs : List (BitVec 16)) :
    Balanced (registerOwed s evs n) := by
  rw [Balanced, registerOwed, count_lookup _ (.inl rfl), count_lookup _ (.inr rfl)]
  simp [register, fdElemCreate, drained]

/-- The stack thread writes a character and then counts it. -/
theorem balanced_stackStep {d : Desc n} {e : Entry} (h : Balanced d)
    (hs : stackStep d.toEntry = some e) : Balanced { d with toEntry := e } := by
  rw [Balanced] at h ⊢
  cases stackStep_move hs with
  | post => exact h
  | lookup ev ops hhalf htodo =>
    rw [htodo] at h
    have hbody := count_handleWakeup d.inTable ev
    simp only [List.count_cons, List.count_append, beq_iff_eq, reduceCtorEq, if_false] at h ⊢
    omega
  | unlockSem c ops hhalf htodo => simpa [htodo, List.count_cons] using h
  | writePipe ops hhalf htodo hroom =>
    simp only [htodo, List.count_cons, beq_iff_eq, reduceCtorEq, if_false, if_true] at h ⊢
    omega
  | incCount ops hhalf htodo =>
    simp only [htodo, List.count_cons, beq_iff_eq, reduceCtorEq, if_false, if_true] at h ⊢
    omega

/-- A step of a thread that changes counter and pipe by what it has drained. -/
theorem balanced_thread {d d' : Desc n} {p : Fin n} {k : ThreadPc} (h : Balanced d)
    (ht : d'.thread = Function.update d.thread p k) (htodo : d'.todo = d.todo)
    (hk : d'.fdWriteCount + d.pipe + drained (d.thread p) = d.fdWriteCount + d'.pipe + drained k) :
    Balanced d' := by
  have hsum := sum_update drained d.thread (Finset.mem_univ p) k
  rw [Balanced] at h ⊢
  rw [ht, htodo]
  omega

theorem balanced_threadStep {d d' : Desc n} {p : Fin n} (h : Balanced d)
    (hs : threadStep d p = some d') : Balanced d' := by
  obtain ⟨pc, hpc, hm⟩ := threadStep_move hs
  cases hm with
  | drainRead buf len hpos =>
    refine balanced_thread (k := .drainCount buf len (min 10 d.pipe)) h rfl rfl ?_
    rw [hpc]
    simp only [goto_toEntry, drained]
    omega
  | drainCount buf len k =>
    refine balanced_thread (k := .drainTest buf len) h rfl rfl ?_
    rw [hpc]
    simp only [goto_toEntry, drained]
    omega
  | drainTest buf len =>
    refine balanced_thread h rfl rfl ?_
    rw [hpc]
    split <;> rfl
  | sockRead buf len =>
    refine balanced_thread (k := if len = _ then .readUnlock _ else .readDone _) h rfl rfl ?_
    rw [hpc]
    split <;> rfl
  | readWait buf len => exact balanced_thread (k := .drainTest buf len) h rfl rfl (by rw [hpc]; rfl)
  | readUnlock ret => exact balanced_thread (k := .readPost ret _) h rfl rfl (by rw [hpc]; rfl)
  | readPost ret v => exact balanced_thread (k := .readDone ret) h rfl rfl (by rw [hpc]; rfl)
  | acceptWait => exact balanced_thread (k := .sockAccept) h rfl rfl (by rw [hpc]; rfl)
  | sockAccept => exact balanced_thread (k := .acceptDone _) h rfl rfl (by rw [hpc]; rfl)
  | readDone | acceptDone => exact balanced_thread (k := .away) h rfl rfl (by rw [hpc]; rfl)

theorem balanced_step {d d' : Desc n} {a : Act n} (h : Balanced d) (hs : step d a = some d') :
    Balanced d' := by
  cases step_move hs with
  | event e s evs hidle he =>
    rw [Balanced, hidle.2] at h
    rw [Balanced, count_lookup _ (.inl rfl), count_lookup _ (.inr rfl)]
    exact h
  | stack e he => exact balanced_stackStep h he
  | read p buf len hin haway =>
    exact balanced_thread (k := .readWait _ _) h rfl rfl (by rw [haway]; rfl)
  | accept p hin haway => exact balanced_thread (k := .acceptWait) h rfl rfl (by rw [haway]; rfl)
  | thread p d' hs => exact balanced_threadStep h hs
  | close b => exact h

/-- RUN: in every reachable state in which nobody is between the two the counter is the pipe. -/
theorem count_eq_pipe {s : PicoSocket} {evs : List (BitVec 16)} {as : List (Act n)} {d : Desc n}
    (hr : run step (registerOwed s evs n) as = some d) (hidle : Idle d.toEntry)
    (hnone : ∀ p, drained (d.thread p) = 0) : d.fdWriteCount = d.pipe := by
  have h : Balanced d := run_invariant (fun _ _ _ hi hs => balanced_step hi hs)
    (balanced_registerOwed s evs) hr
  rw [Balanced, hidle.2] at h
  simpa [hnone] using h

/-- The loop ends without waiting when the counter is at most the pipe. -/
theorem drain_passes {p : Fin n} {buf : Buffer} {len : ℤ} : ∀ (k : ℕ) (d : Desc n), d.pipe = k →
    d.thread p = .drainTest buf len → d.fdWriteCount ≤ d.pipe → ∃ m d',
      run step d (List.replicate m (.thread p)) = some d' ∧ d'.thread p = .sockRead buf len ∧
        d'.socket = d.socket := by
  intro k
  induction k using Nat.strong_induction_on with
  | _ k ih =>
    intro d hk hpc hle
    by_cases hpos : 0 < d.fdWriteCount
    · have hpipe : 0 < d.pipe := by omega
      let d₃ : Desc n := { d.goto p (.drainTest buf len) with
        pipe := d.pipe - min 10 d.pipe
        fdWriteCount := d.fdWriteCount - (min 10 d.pipe : ℕ) }
      have hround : run step d (List.replicate 3 (.thread p)) = some d₃ := by
        simp only [List.replicate, run, step, threadStep, hpc, if_pos hpos, goto_thread_self,
          goto_toEntry, Option.bind_some]
        simp only [Desc.goto, Function.update_self, if_pos hpipe, Option.bind_some,
          Function.update_idem]
        rfl
      obtain ⟨m, d', hrun, hpc', hsock⟩ := ih d₃.pipe (by simp only [d₃]; omega) d₃ rfl
        (goto_thread_self ..) (by simp only [d₃]; omega)
      refine ⟨3 + m, d', ?_, hpc', hsock⟩
      rw [List.replicate_add]
      exact run_append.mpr ⟨d₃, hround, hrun⟩
    · refine ⟨1, d.goto p (.sockRead buf len), ?_, goto_thread_self .., rfl⟩
      simp [run, step, threadStep, hpc, hpos]

/-- From `pico_socket_read` on a read returns without waiting. -/
theorem sockRead_returns {d : Desc n} {p : Fin n} {buf : Buffer} {len : ℤ}
    (hpc : d.thread p = .sockRead buf len) : ∃ m d',
      run step d (List.replicate m (.thread p)) = some d' ∧
      d'.thread p = .readDone (picoSocketRead d.socket buf len).2.1 := by
  let ret := (picoSocketRead d.socket buf len).2.1
  let d₁ : Desc n := { d.goto p (.readDone ret) with socket := (picoSocketRead d.socket buf len).1 }
  by_cases hfill : len = (picoSocketRead d.socket buf len).2.1
  · refine ⟨3, { d₁ with sem := postUnless d.sem .read (d.sem .read) }, ?_, goto_thread_self ..⟩
    simp only [List.replicate, run, step, threadStep, hpc, if_pos hfill, goto_thread_self,
      Option.bind_some]
    simp [Desc.goto, d₁, ret]
  · refine ⟨1, d₁, ?_, goto_thread_self ..⟩
    simp [List.replicate, run, step, threadStep, hpc, if_neg hfill, d₁, ret]

/-- A `read()` that finds a token and no more counted than written returns without waiting, with
    what `pico_socket_read` gives. -/
theorem read_returns {d : Desc n} {p : Fin n} (ht : d.inTable) (haway : d.thread p = .away)
    (hpos : 1 ≤ d.sem .read) (hle : d.fdWriteCount ≤ d.pipe) (buf : Buffer) (len : ℕ) : ∃ m d',
      run step d (.read p buf len :: List.replicate m (.thread p)) = some d' ∧
        d'.thread p = .readDone (picoSocketRead d.socket buf (toInt32 len)).2.1 := by
  let d₂ : Desc n := { d.goto p (.drainTest buf (toInt32 len)) with
    sem := Function.update d.sem .read (d.sem .read - 1) }
  have hwait : run step d [.read p buf len, .thread p] = some d₂ := by
    simp [run, step, threadStep, ht, haway, Nat.lt_of_succ_le hpos, Desc.goto, d₂]
  obtain ⟨m, d₃, hdrain, hpc, hsock⟩ := drain_passes d₂.pipe d₂ rfl (goto_thread_self ..) hle
  obtain ⟨m', d', hlast, hdone⟩ := sockRead_returns hpc
  rw [show d₃.socket = d.socket from hsock] at hdone
  refine ⟨1 + m + m', d', ?_, hdone⟩
  rw [List.replicate_add, List.replicate_add]
  exact run_append (k := .read p buf len :: (List.replicate 1 _ ++ List.replicate m _)) |>.mpr
    ⟨d₃, run_append (k := [.read p buf len, .thread p]) |>.mpr ⟨d₂, hwait, hdrain⟩, hlast⟩

end FdPicotcp.Drain
