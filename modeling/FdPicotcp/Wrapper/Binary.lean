import FdPicotcp.Wrapper.Descriptor

/-! Are the two wake-up semaphores binary?

    `unlock_sem` looks at the value and posts if it was 0, in two steps. `accept_sem` has one poster,
    the stack thread. `read_sem` is also posted by a reader whose read filled its buffer, so two
    parties can see the same 0. `Unchanged` says that nobody has come in between, `Exclusive` that no
    two parties are in it at once; `binary_iff` relates both to the values. -/

namespace FdPicotcp.Binary
open Transition CInt Socket Elem Descriptor

variable {n : ℕ}

/-- The step is the `sem_post` of an `unlock_sem` that has seen 0. -/
def Posts (d : Desc n) (c : Sem) : Act n → Prop
  | .stack => d.half = some (c, 0)
  | .thread p => c = .read ∧ ∃ ret, d.thread p = .readPost ret 0
  | _ => False

/-- A post is made while the semaphore still has the value that `sem_getvalue` returned. -/
def Unchanged (d : Desc n) (a : Act n) : Prop := ∀ c, Posts d c a → d.sem c = 0

def AtMostOne (d : Desc n) : Prop := ∀ c, d.sem c ≤ 1

instance (d : Desc n) (c : Sem) : DecidablePred (Posts d c)
  | .stack => inferInstanceAs (Decidable (d.half = some (c, 0)))
  | .thread p =>
    match h : d.thread p with
    | .readPost ret 0 => decidable_of_iff (c = .read) ⟨fun hc => ⟨hc, ret, h⟩, And.left⟩
    | .readPost _ (_ + 1) => isFalse fun ⟨_, _, hp⟩ => by rw [h] at hp; cases hp
    | .away | .readWait _ _ | .drainTest _ _ | .drainRead _ _ | .drainCount _ _ _ | .sockRead _ _
    | .readUnlock _ | .readDone _ | .acceptWait | .sockAccept | .acceptDone _ =>
      isFalse fun ⟨_, _, hp⟩ => by rw [h] at hp; cases hp
  | .event _ | .read _ _ _ | .accept _ | .close _ => inferInstanceAs (Decidable False)

instance (d : Desc n) (a : Act n) : Decidable (Unchanged d a) :=
  decidable_of_iff ((Posts d .accept a → d.sem .accept = 0) ∧ (Posts d .read a → d.sem .read = 0))
    ⟨fun h c => by cases c; exacts [h.1, h.2], fun h => ⟨h .accept, h .read⟩⟩

theorem sem_stackStep {e e' : Entry} (c : Sem) (hs : stackStep e = some e') :
    (e.half = some (c, 0) ∧ e'.sem c = e.sem c + 1) ∨
      (e.half ≠ some (c, 0) ∧ e'.sem c = e.sem c) := by
  cases stackStep_move hs with
  | post c' v hhalf =>
    rw [hhalf]
    by_cases hc : c = c'
    · subst hc
      simp only [postUnless_self]
      rcases Nat.eq_zero_or_pos v with rfl | hv
      · exact .inl ⟨rfl, if_neg (lt_irrefl 0)⟩
      · refine .inr ⟨?_, if_pos hv⟩
        simp only [ne_eq, Option.some.injEq, Prod.mk.injEq, true_and]
        omega
    · refine .inr ⟨?_, postUnless_of_ne hc _ _⟩
      simp only [ne_eq, Option.some.injEq, Prod.mk.injEq, not_and]
      exact fun h => absurd h.symm hc
  | lookup | unlockSem | writePipe | incCount =>
    refine .inr ⟨?_, rfl⟩
    simp [*]

/-- `sem_wait` raises no value. -/
theorem update_pred_le (sem : Sem → ℕ) (c c' : Sem) :
    Function.update sem c (sem c - 1) c' ≤ sem c' := by
  rw [Function.update_apply]
  split
  · next hc => rw [hc]; omega
  · exact le_rfl

theorem sem_threadStep {d d' : Desc n} {p : Fin n} (c : Sem) (hs : threadStep d p = some d') :
    (Posts d c (.thread p) ∧ d'.sem c = d.sem c + 1) ∨
      (¬ Posts d c (.thread p) ∧ d'.sem c ≤ d.sem c) := by
  obtain ⟨pc, hpc, hm⟩ := threadStep_move hs
  have hno : (∀ ret, pc ≠ .readPost ret 0) → ¬ Posts d c (.thread p) := by
    rintro hpost ⟨-, ret, h⟩
    exact hpost ret (hpc.symm.trans h)
  cases hm with
  | readPost ret v =>
    rcases Nat.eq_zero_or_pos v with rfl | hv
    · cases c with
      | accept =>
        have hne : Sem.accept ≠ .read := by simp
        refine .inr ⟨fun h => hne h.1, ?_⟩
        exact (postUnless_of_ne hne d.sem 0).le
      | read => exact .inl ⟨⟨rfl, ret, hpc⟩, by simp [postUnless_self]⟩
    · have hpost : ∀ ret', ThreadPc.readPost ret v ≠ .readPost ret' 0 := by
        intro ret' h
        cases h
        exact lt_irrefl 0 hv
      exact .inr ⟨hno hpost, by simp [postUnless, hv]⟩
  | readWait buf len hpos =>
    exact .inr ⟨hno (by simp), update_pred_le d.sem _ c⟩
  | acceptWait hpos =>
    exact .inr ⟨hno (by simp), update_pred_le d.sem _ c⟩
  | drainTest | drainRead | drainCount | sockRead | readUnlock | readDone | sockAccept
  | acceptDone => exact .inr ⟨hno (by simp), le_rfl⟩

/-- STEP: a post raises the value by 1, and nothing else raises it. -/
theorem sem_step {d d' : Desc n} {a : Act n} (c : Sem) (hs : step d a = some d') :
    (Posts d c a ∧ d'.sem c = d.sem c + 1) ∨ (¬ Posts d c a ∧ d'.sem c ≤ d.sem c) := by
  cases step_move hs with
  | stack e he => exact (sem_stackStep c he).imp_right fun h => ⟨h.1, h.2.le⟩
  | thread p d' hs => exact sem_threadStep c hs
  | event | read | accept | close => exact .inr ⟨id, le_rfl⟩

/-- The stack thread, inside its `unlock_sem` of `accept_sem`, sees what is there. -/
def AcceptSeen (d : Desc n) : Prop := d.half = some (.accept, 0) → d.sem .accept = 0

theorem acceptSeen_step {d d' : Desc n} {a : Act n} (h : AcceptSeen d) (hs : step d a = some d') :
    AcceptSeen d' := by
  intro hhalf
  have hno : ∀ p : Fin n, ¬ Posts d .accept (.thread p) := fun p hp => by cases hp.1
  cases step_move hs with
  | stack e he =>
    cases stackStep_move he with
    | post => cases hhalf
    | unlockSem c ops =>
      simp only [Option.some.injEq, Prod.mk.injEq] at hhalf
      obtain ⟨rfl, hzero⟩ := hhalf
      exact hzero
    | lookup | writePipe | incCount => exact h hhalf
  | thread p d' hs =>
    rcases sem_threadStep .accept hs with ⟨hp, -⟩ | ⟨-, hle⟩
    · exact absurd hp (hno p)
    · have hkept : d'.half = d.half := by
        obtain ⟨pc, hpc, hm⟩ := threadStep_move hs
        cases hm <;> rfl
      exact Nat.le_zero.mp (h (hkept ▸ hhalf) ▸ hle)
  | event | read | accept | close => exact h hhalf

/-- STEP: from values at most 1 a step leads to values at most 1 exactly if its post, if it is one,
    is made on an unchanged semaphore. -/
theorem binary_step {d d' : Desc n} {a : Act n} (h : AtMostOne d) (hs : step d a = some d') :
    AtMostOne d' ↔ Unchanged d a := by
  constructor
  · intro h' c hp
    rcases sem_step c hs with ⟨-, hup⟩ | ⟨hno, -⟩
    · have hle := h' c
      omega
    · exact absurd hp hno
  · intro hu c
    have hle := h c
    rcases sem_step c hs with ⟨hp, hup⟩ | ⟨-, hdown⟩
    · rw [hup, hu c hp]
    · exact hdown.trans hle

/-- RUN: `accept_sem`, with its one poster, is binary in every run. -/
theorem accept_binary {s : PicoSocket} {evs : List (BitVec 16)} {as : List (Act n)} {d : Desc n}
    (hr : run step (registerOwed s evs n) as = some d) : d.sem .accept ≤ 1 := by
  have h : AcceptSeen d ∧ d.sem .accept ≤ 1 := by
    refine run_invariant (I := fun d : Desc n => AcceptSeen d ∧ d.sem .accept ≤ 1) ?_ ?_ hr
    · rintro d a d' ⟨hseen, hle⟩ hs
      refine ⟨acceptSeen_step hseen hs, ?_⟩
      rcases sem_step .accept hs with ⟨hp, hup⟩ | ⟨-, hdown⟩
      · have hzero : d.sem .accept = 0 := by
          cases a with
          | stack => exact hseen hp
          | thread p => cases hp.1
          | event | read | accept | close => exact hp.elim
        rw [hup, hzero]
      · exact hdown.trans hle
    · exact ⟨nofun, Nat.zero_le 1⟩
  exact h.2

/-- A party is between the `sem_getvalue` and the end of its `unlock_sem(l->read_sem)`: the stack
    thread (`none`) or a reader. -/
def Unlocking (d : Desc n) : Option (Fin n) → Prop
  | none => ∃ v, d.half = some (.read, v)
  | some p => ∃ ret v, d.thread p = .readPost ret v

/-- The step is the `sem_getvalue` of an `unlock_sem(l->read_sem)`. -/
def Looks (d : Desc n) : Act n → Prop
  | .stack => d.half = none ∧ d.todo.head? = some (.unlockSem .read)
  | .thread p => ∃ ret, d.thread p = .readUnlock ret
  | _ => False

/-- Nobody enters `unlock_sem(l->read_sem)` while another party is in it. -/
def Exclusive (d : Desc n) (a : Act n) : Prop := Looks d a → ∀ x, ¬ Unlocking d x

/-- At most one party is in `unlock_sem(l->read_sem)`, and whoever is to post has seen what is
    there. -/
structure Guarded (d : Desc n) : Prop where
  apart : ∀ p ret v, d.thread p = .readPost ret v → ∀ w, d.half ≠ some (.read, w)
  one : ∀ p ret v q ret' v', d.thread p = .readPost ret v → d.thread q = .readPost ret' v' → p = q
  stack : ∀ c, d.half = some (c, 0) → d.sem c = 0
  thread : ∀ p ret, d.thread p = .readPost ret 0 → d.sem .read = 0

theorem Guarded.unchanged {d : Desc n} (h : Guarded d) (a : Act n) : Unchanged d a := by
  intro c hp
  cases a with
  | stack => exact h.stack c hp
  | thread p =>
    obtain ⟨rfl, ret, hpc⟩ := hp
    exact h.thread p ret hpc
  | event | read | accept | close => exact hp.elim

theorem guarded_registerOwed (s : PicoSocket) (evs : List (BitVec 16)) :
    Guarded (registerOwed s evs n) :=
  ⟨fun _ _ _ => nofun, fun _ _ _ _ _ _ => nofun, fun _ => nofun, fun _ _ => nofun⟩

/-- A step that lets nobody in and posts nothing. -/
theorem Guarded.of_le {d d' : Desc n} (h : Guarded d) (hhalf : d'.half = d.half)
    (hthread : ∀ q ret v, d'.thread q = .readPost ret v → d.thread q = .readPost ret v)
    (hsem : ∀ c, d'.sem c ≤ d.sem c) : Guarded d' where
  apart := fun p ret v hp => hhalf ▸ h.apart p ret v (hthread p ret v hp)
  one := fun p ret v q ret' v' hp hq =>
    h.one p ret v q ret' v' (hthread p ret v hp) (hthread q ret' v' hq)
  stack := fun c hc => Nat.le_zero.mp (h.stack c (hhalf ▸ hc) ▸ hsem c)
  thread := fun p ret hp => Nat.le_zero.mp (h.thread p ret (hthread p ret 0 hp) ▸ hsem .read)

theorem guarded_stackStep {d : Desc n} {e : Entry} (h : Guarded d) (hx : Exclusive d .stack)
    (hs : stackStep d.toEntry = some e) : Guarded { d with toEntry := e } := by
  cases stackStep_move hs with
  | post c v hhalf =>
    refine ⟨fun p ret v hp w => nofun, h.one, fun c => nofun, fun p ret hp => ?_⟩
    cases c with
    | accept => exact (postUnless_of_ne (by simp) d.sem v).trans (h.thread p ret hp)
    | read => exact absurd hhalf (h.apart p ret 0 hp v)
  | unlockSem c ops hhalf htodo =>
    have hstack : ∀ c', some (c, d.sem c) = some (c', 0) → d.sem c' = 0 := by
      intro c' hc
      simp only [Option.some.injEq, Prod.mk.injEq] at hc
      exact hc.1 ▸ hc.2
    refine ⟨fun p ret v hp w hw => ?_, h.one, hstack, h.thread⟩
    simp only [Option.some.injEq, Prod.mk.injEq] at hw
    exact hx ⟨hhalf, by rw [htodo, hw.1]; rfl⟩ (some p) ⟨ret, v, hp⟩
  | lookup | writePipe | incCount => exact h.of_le rfl (fun q ret v hq => hq) fun c => le_rfl

/-- A thread moved to `k` is the only one that may newly stand before the post. -/
theorem thread_of_update {d : Desc n} {p q : Fin n} {k : ThreadPc} {ret : ℤ} {v : ℕ}
    (hk : ∀ ret v, k ≠ .readPost ret v) (hq : Function.update d.thread p k q = .readPost ret v) :
    d.thread q = .readPost ret v ∧ q ≠ p := by
  by_cases hqp : q = p
  · rw [hqp, Function.update_self] at hq
    exact absurd hq (hk ret v)
  · rw [Function.update_of_ne hqp] at hq
    exact ⟨hq, hqp⟩

/-- A thread that neither looks nor posts. -/
theorem Guarded.goto {d d' : Desc n} {p : Fin n} {k : ThreadPc} (h : Guarded d)
    (hk : ∀ ret v, k ≠ .readPost ret v) (hhalf : d'.half = d.half)
    (hthread : d'.thread = Function.update d.thread p k) (hsem : ∀ c, d'.sem c ≤ d.sem c) :
    Guarded d' := by
  refine h.of_le hhalf ?_ hsem
  intro q ret v hq
  exact (thread_of_update hk (hthread ▸ hq)).1

/-- The reader's `sem_getvalue`, made while nobody else is in `unlock_sem`. -/
theorem Guarded.looks {d : Desc n} {p : Fin n} (h : Guarded d) (hnone : ∀ x, ¬ Unlocking d x)
    (ret : ℤ) : Guarded (d.goto p (.readPost ret (d.sem .read))) := by
  have hself : ∀ q ret' v, (d.goto p (.readPost ret (d.sem .read))).thread q = .readPost ret' v →
      q = p ∧ v = d.sem .read := by
    intro q ret' v hq
    by_cases hqp : q = p
    · rw [hqp, goto_thread_self] at hq
      cases hq
      exact ⟨hqp, rfl⟩
    · rw [goto_thread_of_ne hqp] at hq
      exact absurd ⟨ret', v, hq⟩ (hnone (some q))
  refine ⟨fun _ _ _ _ w hw => hnone none ⟨w, hw⟩, ?_, h.stack, ?_⟩
  · intro q ret' v q' ret'' v' hq hq'
    rw [(hself q ret' v hq).1, (hself q' ret'' v' hq').1]
  · intro q ret' hq
    exact (hself q ret' 0 hq).2.symm

/-- The reader's post: it was the only party in `unlock_sem`, and leaves it. -/
theorem Guarded.posts {d d' : Desc n} {p : Fin n} {ret : ℤ} {v : ℕ} (h : Guarded d)
    (hp : d.thread p = .readPost ret v) (hhalf : d'.half = d.half)
    (hthread : d'.thread = Function.update d.thread p (.readDone ret))
    (hsem : d'.sem = postUnless d.sem .read v) : Guarded d' := by
  have halone : ∀ q ret' v', d'.thread q ≠ .readPost ret' v' := by
    intro q ret' v' hq
    obtain ⟨hold, hne⟩ := thread_of_update (k := .readDone ret) (fun _ _ => nofun)
      (hthread ▸ hq)
    exact hne (h.one q ret' v' p ret v hold hp)
  refine ⟨fun q ret' v' hq => absurd hq (halone q ret' v'),
    fun q ret' v' _ _ _ hq => absurd hq (halone q ret' v'), ?_,
    fun q ret' hq => absurd hq (halone q ret' 0)⟩
  intro c hc
  rw [hhalf] at hc
  cases c with
  | accept =>
    rw [hsem, postUnless_of_ne (by simp) d.sem v]
    exact h.stack .accept hc
  | read => exact absurd hc (h.apart p ret v hp 0)

theorem guarded_threadStep {d d' : Desc n} {p : Fin n} (h : Guarded d) (hx : Exclusive d (.thread p))
    (hs : threadStep d p = some d') : Guarded d' := by
  obtain ⟨pc, hpc, hm⟩ := threadStep_move hs
  cases hm with
  | readUnlock ret => exact h.looks (hx ⟨ret, hpc⟩) ret
  | readPost ret v => exact h.posts hpc rfl rfl rfl
  | readWait buf len =>
    exact h.goto (k := .drainTest buf len) (fun _ _ => nofun) rfl rfl
      fun c => update_pred_le d.sem .read c
  | acceptWait =>
    exact h.goto (k := .sockAccept) (fun _ _ => nofun) rfl rfl
      fun c => update_pred_le d.sem .accept c
  | drainTest buf len =>
    refine h.goto (fun ret v => ?_) rfl rfl fun c => le_rfl
    split <;> nofun
  | sockRead buf len =>
    refine h.goto (k := if len = _ then .readUnlock _ else .readDone _) (fun ret v => ?_) rfl rfl
      fun c => le_rfl
    split <;> nofun
  | drainRead buf len =>
    exact h.goto (k := .drainCount buf len _) (fun _ _ => nofun) rfl rfl fun c => le_rfl
  | drainCount buf len =>
    exact h.goto (k := .drainTest buf len) (fun _ _ => nofun) rfl rfl fun c => le_rfl
  | readDone | acceptDone => exact h.goto (k := .away) (fun _ _ => nofun) rfl rfl fun c => le_rfl
  | sockAccept => exact h.goto (k := .acceptDone _) (fun _ _ => nofun) rfl rfl fun c => le_rfl

theorem guarded_step {d d' : Desc n} {a : Act n} (h : Guarded d) (hx : Exclusive d a)
    (hs : step d a = some d') : Guarded d' := by
  cases step_move hs with
  | stack e he => exact guarded_stackStep h hx he
  | thread p d' hs => exact guarded_threadStep h hx hs
  | event | close => exact h.of_le rfl (fun q ret v hq => hq) fun c => le_rfl
  -- a call begins away from `unlock_sem`
  | read p buf len =>
    exact h.goto (k := .readWait buf (toInt32 len)) (fun _ _ => nofun) rfl rfl fun c => le_rfl
  | accept p => exact h.goto (k := .acceptWait) (fun _ _ => nofun) rfl rfl fun c => le_rfl

/-- EXCLUSION: where no two parties are in `unlock_sem(l->read_sem)` at once every post is made on
    the value seen, so both semaphores are binary. -/
theorem exclusive_unchanged {s : PicoSocket} {evs : List (BitVec 16)} {as : List (Act n)}
    (hm : Meets step Exclusive (registerOwed s evs n) as) :
    Meets step Unchanged (registerOwed s evs n) as := by
  refine hm.of_invariant (I := Guarded) ?_ ?_ (guarded_registerOwed s evs)
  · exact fun d a d' h hx hs => guarded_step h hx hs
  · exact fun d a h _ => h.unchanged a

/-- BINARY SEMAPHORES: `accept_sem` is at most 1 throughout every run, and both are throughout a
    run exactly if every post is made on a semaphore that still has the value seen. A schedule that
    lets one party at a time into `unlock_sem(l->read_sem)` is one of these. -/
theorem binary_iff {s : PicoSocket} {evs : List (BitVec 16)} {as : List (Act n)} {d : Desc n}
    (hr : run step (registerOwed s evs n) as = some d) :
    Everywhere step (fun d => d.sem .accept ≤ 1) (registerOwed s evs n) as ∧
      (Everywhere step AtMostOne (registerOwed s evs n) as ↔
        Meets step Unchanged (registerOwed s evs n) as) ∧
      (Meets step Exclusive (registerOwed s evs n) as →
        Everywhere step AtMostOne (registerOwed s evs n) as) := by
  have hiff : Everywhere step AtMostOne (registerOwed s evs n) as ↔
      Meets step Unchanged (registerOwed s evs n) as := by
    refine everywhere_iff_meets (I := fun _ => True) ?_ trivial (fun c => Nat.zero_le 1) hr
    exact fun d a d' _ h hs => ⟨trivial, binary_step h hs⟩
  exact ⟨fun k l u _ hu => accept_binary hu, hiff, fun hm => hiff.mpr (exclusive_unchanged hm)⟩

/-- Two bytes are announced and read whole; while the reader is in its `unlock_sem`, which has seen
    0, the next byte is announced. -/
def overlap : List (Act 1) :=
  .event (.segment (.ofBytes 0 [1, 2]) 0) :: List.replicate 5 .stack ++
    .read 0 .valid 2 :: List.replicate 7 (.thread 0) ++
    .event (.segment (.ofBytes 2 [3]) 0) :: List.replicate 5 .stack ++ [.thread 0]

theorem overlap_runs : (run step (registerOwed (connectedSocket 0) [] 1) overlap).isSome := by
  decide +kernel

/-- The reader posts all the same, and the semaphore is 2. -/
theorem two_posts : ¬ ∀ as d, run step (registerOwed (connectedSocket 0) [] 1) as = some d →
    AtMostOne d := by
  intro h
  have htwo : (Option.get _ overlap_runs).sem .read = 2 := by decide +kernel
  have hle := h overlap _ (Option.some_get overlap_runs).symm .read
  rw [htwo] at hle
  exact absurd hle (by decide)

/-- The next byte is announced after the reader has posted. -/
def inTurn : List (Act 1) :=
  .event (.segment (.ofBytes 0 [1, 2]) 0) :: List.replicate 5 .stack ++
    .read 0 .valid 2 :: List.replicate 8 (.thread 0) ++
    .event (.segment (.ofBytes 2 [3]) 0) :: List.replicate 5 .stack

theorem inTurn_runs : (run step (registerOwed (connectedSocket 0) [] 1) inTurn).isSome := by
  decide +kernel

theorem binary_iff_inTurn : Everywhere step AtMostOne (registerOwed (connectedSocket 0) [] 1) inTurn :=
  (binary_iff (Option.some_get inTurn_runs).symm).2.1.mpr (by decide +kernel)

end FdPicotcp.Binary
