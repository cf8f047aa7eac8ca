import Mathlib.Algebra.Order.BigOperators.Group.Finset
import Mathlib.Data.Fintype.Basic
import FdPicotcp.Wrapper.Wakeups

/-! Does a thread wait for an event that can no longer come?

    A FIN behind an empty queue, a reset, a timeout and a close announce themselves with `EV_CLOSE`,
    `EV_FIN`, `EV_ERR` or not at all, and `handle_wakeup` posts nothing for any of them. Whoever
    waits then depends on the posts that are left: `wakes` counts the ones that come in every order
    of the remaining steps, and no step but a close takes one away without waking somebody. -/

namespace FdPicotcp.Blocked
open Transition Socket Elem Descriptor

variable {n : ℕ}

/-- 1 for a thread in `sem_wait`. -/
def waits : Sem → ThreadPc → ℕ
  | .read, .readWait _ _ | .accept, .acceptWait => 1
  | _, _ => 0

/-- At end-of-file with an empty queue, reset, timed out, or closed by another thread. -/
def Over (d : Desc n) : Prop :=
  d.inTable = false ∨ d.socket.closed = true ∨ (peerClosed d.socket = true ∧ ¬ hasData d.socket)

/-- The event a semaphore stands for can no longer come. -/
def Dead : Sem → Desc n → Prop
  | .read, d => Over d
  | .accept, d => d.socket.state ≠ .listen

instance (d : Desc n) : Decidable (Over d) := inferInstanceAs (Decidable (_ ∨ _ ∨ _))

instance (c : Sem) (d : Desc n) : Decidable (Dead c d) := by
  cases c
  · exact inferInstanceAs (Decidable (_ ≠ _))
  · exact inferInstanceAs (Decidable (Over d))

def waiting (c : Sem) (d : Desc n) : ℕ := ∑ p, waits c (d.thread p)

/-- The stack thread will look at the semaphore. -/
def StackLooks (c : Sem) (e : Entry) : Prop :=
  ∃ op ∈ e.todo, op.posts c ∧ (e.inTable ∨ op = .unlockSem c)

/-- The thread is about to enter `unlock_sem`. -/
def WillLook : Sem → ThreadPc → Prop
  | .read, .readUnlock _ => True
  | _, _ => False

def Looks (c : Sem) (d : Desc n) : Prop :=
  StackLooks c d.toEntry ∨ ∃ p, WillLook c (d.thread p)

instance (c : Sem) (e : Entry) : Decidable (StackLooks c e) :=
  inferInstanceAs (Decidable (∃ op ∈ e.todo, _ ∧ _))

instance (c : Sem) : DecidablePred (WillLook c) := fun pc => by
  unfold WillLook; split <;> infer_instance

instance (c : Sem) (d : Desc n) : Decidable (Looks c d) := inferInstanceAs (Decidable (_ ∨ _))

/-- 1 for a thread that has seen 0 and posts. -/
def sawZero : Sem → ThreadPc → ℕ
  | .read, .readPost _ 0 => 1
  | _, _ => 0

def stackSaw (c : Sem) (e : Entry) : ℕ := if e.half = some (c, 0) then 1 else 0

/-- Tokens there and tokens sure to be posted. -/
def tokens (c : Sem) (d : Desc n) : ℕ :=
  d.sem c + stackSaw c d.toEntry + ∑ p, sawZero c (d.thread p)

/-- How many waiters wake in every order of the remaining steps: of several that only look, one. -/
def wakes (c : Sem) (d : Desc n) : ℕ := max (tokens c d) (if Looks c d then 1 else 0)

/-- Some `unlock_sem` of the semaphore is under way or bound to come. -/
def Outstanding (c : Sem) (d : Desc n) : Prop :=
  Looks c d ∨ d.half = some (c, 0) ∨ ∃ p, 0 < sawZero c (d.thread p)

/-- Waits for a dead event with the semaphore at 0 and no notification outstanding. -/
def Stuck (c : Sem) (d : Desc n) (p : Fin n) : Prop :=
  0 < waits c (d.thread p) ∧ Dead c d ∧ d.sem c = 0 ∧ ¬ Outstanding c d

instance (c : Sem) (d : Desc n) : Decidable (Outstanding c d) :=
  inferInstanceAs (Decidable (_ ∨ _ ∨ _))

instance (c : Sem) (d : Desc n) (p : Fin n) : Decidable (Stuck c d p) :=
  inferInstanceAs (Decidable (_ ∧ _ ∧ _ ∧ _))

/-- The event ends what the semaphore stands for. -/
def Ends (c : Sem) (d : Desc n) : Event → Prop
  | .fin seq => c = .read ∧ finExpected d.socket (.fin seq) ∧ ¬ hasData d.socket
  | .del _ => True
  | _ => False

instance (c : Sem) (d : Desc n) : DecidablePred (Ends c d)
  | .fin _ => inferInstanceAs (Decidable (_ ∧ _ ∧ _))
  | .del _ => isTrue trivial
  | .segment .. | .segmentFin .. | .datagram _ | .syn _ | .firstAck _ | .synAck _ => isFalse id

/-- The steps that strand nobody: a thread enters `sem_wait` on a dead event only if it is among
    those that wake, and a step that ends an event leaves no more waiters than wake. -/
def Heeded (d : Desc n) : Act n → Prop
  | .read _ _ _ => Over d → waiting .read d + 1 ≤ wakes .read d
  | .accept _ => Dead .accept d → waiting .accept d + 1 ≤ wakes .accept d
  | .event e => ∀ c, Ends c d e → waiting c d ≤ wakes c d
  | .close _ => ∀ c, waiting c d ≤ wakes c { d with inTable := false }
  | .thread p =>
    match d.thread p with
    | .sockRead buf len => peerClosed d.socket = true → ¬ readLeaves d.socket buf len →
      waiting .read d ≤ wakes .read d ∨ (waiting .read d ≤ 1 ∧ readFills d.socket buf len)
    | _ => True
  | .stack => True

instance : Fintype Sem := ⟨{.accept, .read}, fun c => by cases c <;> decide⟩

instance (d : Desc n) : DecidablePred (Heeded d)
  | .read .. | .accept _ => inferInstanceAs (Decidable (_ → _))
  | .event _ | .close _ => inferInstanceAs (Decidable (∀ _, _))
  | .thread p => by
    dsimp only [Heeded]
    exact match d.thread p with
      | .sockRead _ _ => inferInstance
      | .away | .readWait _ _ | .drainTest _ _ | .drainRead _ _ | .drainCount _ _ _ | .readUnlock _
      | .readPost _ _ | .readDone _ | .acceptWait | .sockAccept | .acceptDone _ => inferInstance
  | .stack => isTrue trivial

/-- The law of one semaphore. -/
def Wakeable (c : Sem) (d : Desc n) : Prop := waiting c d ≤ wakes c d

theorem wakeable_iff {c : Sem} {d : Desc n} :
    Wakeable c d ↔ waiting c d ≤ tokens c d ∨ (waiting c d ≤ 1 ∧ Looks c d) := by
  rw [Wakeable, wakes, le_max_iff]
  by_cases hl : Looks c d
  · simp [hl]
  · simp only [hl, if_false, and_false, or_false]
    omega

theorem sawZero_of_willLook {c : Sem} {pc : ThreadPc} (h : WillLook c pc) : sawZero c pc = 0 := by
  cases c <;> cases pc <;> first | rfl | exact absurd h id

/-- A step of one thread keeps the law if it takes no token without waking the thread, and if a
    thread that was to look still is or leaves a token. -/
theorem wakeable_thread {c : Sem} {d d' : Desc n} {p : Fin n} {k : ThreadPc} (h : Wakeable c d)
    (ht : d'.thread = Function.update d.thread p k) (hhalf : d'.half = d.half)
    (htodo : d'.todo = d.todo) (hin : d'.inTable = d.inTable)
    (hcount : waits c k + d.sem c + sawZero c (d.thread p) ≤
      waits c (d.thread p) + d'.sem c + sawZero c k)
    (hwait : waits c k ≤ waits c (d.thread p))
    (hlook : WillLook c (d.thread p) → WillLook c k ∨ 1 ≤ d'.sem c + sawZero c k) :
    Wakeable c d' := by
  have hw := sum_update (waits c) d.thread (Finset.mem_univ p) k
  have hz := sum_update (sawZero c) d.thread (Finset.mem_univ p) k
  have hle : sawZero c (d.thread p) ≤ ∑ q, sawZero c (d.thread q) :=
    Finset.single_le_sum (f := fun q => sawZero c (d.thread q)) (fun _ _ => Nat.zero_le _)
      (Finset.mem_univ p)
  have hstack : stackSaw c d'.toEntry = stackSaw c d.toEntry := by rw [stackSaw, hhalf]; rfl
  have hless : waiting c d' ≤ waiting c d := by
    rw [waiting, waiting, ht]
    omega
  rw [wakeable_iff] at h ⊢
  rcases h with htok | ⟨hone, hl⟩
  · left
    rw [waiting, tokens] at htok ⊢
    rw [ht, hstack]
    omega
  · by_cases hl' : Looks c d'
    · exact .inr ⟨hless.trans hone, hl'⟩
    · left
      have hp : WillLook c (d.thread p) := by
        rcases hl with hl | ⟨q, hq⟩
        · refine absurd (.inl ?_) hl'
          rw [StackLooks, htodo, hin]
          exact hl
        · by_cases hqp : q = p
          · exact hqp ▸ hq
          · exact absurd (.inr ⟨q, by rwa [ht, Function.update_of_ne hqp]⟩) hl'
      have hk : ¬ WillLook c k := fun hk => hl' (.inr ⟨p, by rwa [ht, Function.update_self]⟩)
      have hpos := (hlook hp).resolve_left hk
      have hzero := sawZero_of_willLook hp
      rw [tokens, ht, hstack]
      omega

/-- A step of the stack thread keeps the law: what looks sees a token or leaves one. -/
theorem wakeable_stack {c : Sem} {d : Desc n} {e : Entry} (h : Wakeable c d)
    (hs : stackStep d.toEntry = some e) : Wakeable c { d with toEntry := e } := by
  rw [wakeable_iff] at h ⊢
  have hkeep : tokens c d ≤ tokens c { d with toEntry := e } →
      (StackLooks c d.toEntry → StackLooks c e ∨ 1 ≤ e.sem c + stackSaw c e) →
      waiting c d ≤ tokens c { d with toEntry := e } ∨
        waiting c d ≤ 1 ∧ Looks c { d with toEntry := e } := by
    rintro htok hlook
    rcases h with h | ⟨hone, hl | hl⟩
    · exact .inl (h.trans htok)
    · rcases hlook hl with hl' | hpos
      · exact .inr ⟨hone, .inl hl'⟩
      · left
        rw [tokens]
        exact hone.trans (by simp only; omega)
    · exact .inr ⟨hone, .inr hl⟩
  cases stackStep_move hs with
  | post c' v hhalf =>
    refine hkeep ?_ .inl
    rw [tokens, tokens, stackSaw, stackSaw, hhalf]
    by_cases hc : c' = c
    · subst hc
      simp only [Option.some.injEq, Prod.mk.injEq, true_and, reduceCtorEq, if_false,
        postUnless_self]
      split_ifs <;> omega
    · simp [hc, postUnless_of_ne (Ne.symm hc)]
  | lookup ev ops hhalf htodo =>
    refine hkeep le_rfl fun hl => .inl ?_
    obtain ⟨op, hop, hposts, hfound⟩ := hl
    rw [htodo] at hop
    rcases List.mem_cons.mp hop with rfl | hop
    · have ht := hfound.resolve_right (by simp)
      obtain ⟨op, hop, hposts⟩ := (owes_handleWakeup c ev).mpr hposts
      exact ⟨op, List.mem_append_left _ (by rw [ht]; exact hop), hposts, .inl ht⟩
    · exact ⟨op, List.mem_append_right _ hop, hposts, hfound⟩
  | unlockSem c' ops hhalf htodo =>
    refine hkeep ?_ ?_
    · simp only [tokens, stackSaw, hhalf, reduceCtorEq, if_false]
      omega
    · intro hl
      obtain ⟨op, hop, hposts, hfound⟩ := hl
      rw [htodo] at hop
      rcases List.mem_cons.mp hop with rfl | hop
      · right
        have hc : c' = c := hposts
        subst hc
        simp only [stackSaw, Option.some.injEq, Prod.mk.injEq, true_and]
        split_ifs <;> omega
      · exact .inl ⟨op, hop, hposts, hfound⟩
  | writePipe ops hhalf htodo hroom =>
    refine hkeep le_rfl fun ⟨op, hop, hposts, hfound⟩ => .inl ⟨op, ?_, hposts, hfound⟩
    rw [htodo] at hop
    rcases List.mem_cons.mp hop with rfl | hop
    · exact absurd hposts id
    · exact hop
  | incCount ops hhalf htodo =>
    refine hkeep le_rfl fun ⟨op, hop, hposts, hfound⟩ => .inl ⟨op, ?_, hposts, hfound⟩
    rw [htodo] at hop
    rcases List.mem_cons.mp hop with rfl | hop
    · exact absurd hposts id
    · exact hop

/-- A step of a thread inside a call keeps the law. -/
theorem wakeable_threadStep {c : Sem} {d d' : Desc n} {p : Fin n} (h : Wakeable c d)
    (hs : threadStep d p = some d') : Wakeable c d' := by
  obtain ⟨pc, hpc, hm⟩ := threadStep_move hs
  cases hm with
  | readWait buf len hpos =>
    refine wakeable_thread (k := .drainTest buf len) h rfl rfl rfl rfl ?_ ?_ ?_ <;> rw [hpc]
    · cases c
      · exact le_rfl
      · simp only [waits, sawZero, Function.update_self]
        omega
    · cases c <;> exact Nat.zero_le _
    · exact fun hl => by cases c <;> exact absurd hl id
  | acceptWait hpos =>
    refine wakeable_thread (k := .sockAccept) h rfl rfl rfl rfl ?_ ?_ ?_ <;> rw [hpc]
    · cases c
      · simp only [waits, sawZero, Function.update_self]
        omega
      · exact le_rfl
    · cases c <;> exact Nat.zero_le _
    · exact fun hl => by cases c <;> exact absurd hl id
  | readUnlock ret =>
    refine wakeable_thread (k := .readPost ret (d.sem .read)) h rfl rfl rfl rfl ?_ ?_ ?_ <;> rw [hpc]
    · cases c <;> simp [waits, sawZero]
    · cases c <;> exact Nat.zero_le _
    · intro hl
      cases c
      · exact absurd hl id
      · right
        rcases Nat.eq_zero_or_pos (d.sem .read) with hv | hv
        · rw [hv]
          exact Nat.le_add_left ..
        · exact Nat.le_add_right_of_le hv
  | readPost ret v =>
    refine wakeable_thread (k := .readDone ret) h rfl rfl rfl rfl ?_ ?_ ?_ <;> rw [hpc]
    · cases c
      · simp [waits, sawZero, postUnless_of_ne]
      · cases v <;> simp [waits, sawZero, postUnless_self]
    · cases c <;> exact Nat.zero_le _
    · exact fun hl => by cases c <;> exact absurd hl id
  | drainRead buf len =>
    refine wakeable_thread (k := .drainCount buf len _) h rfl rfl rfl rfl ?_ ?_ ?_ <;> rw [hpc] <;>
      cases c <;> first | exact le_rfl | exact fun hl => absurd hl id
  | drainTest buf len =>
    refine wakeable_thread h rfl rfl rfl rfl ?_ ?_ ?_ <;> rw [hpc] <;> split <;>
      cases c <;> first | exact le_rfl | exact fun hl => absurd hl id
  | drainCount buf len k =>
    refine wakeable_thread (k := .drainTest buf len) h rfl rfl rfl rfl ?_ ?_ ?_ <;> rw [hpc] <;>
      cases c <;> first | exact le_rfl | exact fun hl => absurd hl id
  | sockRead buf len =>
    refine wakeable_thread (k := if len = _ then .readUnlock _ else .readDone _) h rfl rfl rfl rfl
      ?_ ?_ ?_ <;> rw [hpc] <;> split <;>
      cases c <;> first | exact le_rfl | exact fun hl => absurd hl id
  | sockAccept =>
    refine wakeable_thread (k := .acceptDone _) h rfl rfl rfl rfl ?_ ?_ ?_ <;> rw [hpc] <;>
      cases c <;> first | exact le_rfl | exact fun hl => absurd hl id
  | readDone | acceptDone =>
    refine wakeable_thread (k := .away) h rfl rfl rfl rfl ?_ ?_ ?_ <;> rw [hpc] <;>
      cases c <;> first | exact le_rfl | exact fun hl => absurd hl id

/-- An event takes no token and nothing that looks. -/
theorem wakeable_event {c : Sem} {d : Desc n} (h : Wakeable c d) (hidle : Idle d.toEntry)
    (s : PicoSocket) (ops : List Op) : Wakeable c { d with socket := s, todo := ops } := by
  rw [wakeable_iff] at h ⊢
  refine h.imp id fun ⟨hone, hl⟩ => ⟨hone, .inr (hl.resolve_left ?_)⟩
  rintro ⟨op, hop, -⟩
  rw [hidle.2] at hop
  cases hop

/-- A thread that enters a call waits for one semaphore. -/
theorem wakeable_call {c : Sem} {d : Desc n} {p : Fin n} {k : ThreadPc}
    (haway : d.thread p = .away) (hsaw : sawZero c k = 0)
    (h : waiting c d + waits c k ≤ wakes c d) : Wakeable c (d.goto p k) := by
  have hwaiting : waiting c (d.goto p k) = waiting c d + waits c k := by
    have hsum := sum_update (waits c) d.thread (Finset.mem_univ p) k
    rw [haway, show waits c .away = 0 by cases c <;> rfl, add_zero] at hsum
    exact hsum
  have htokens : tokens c (d.goto p k) = tokens c d := by
    have hsum := sum_update (sawZero c) d.thread (Finset.mem_univ p) k
    rw [haway, hsaw, show sawZero c .away = 0 by cases c <;> rfl, add_zero, add_zero] at hsum
    exact congrArg (d.sem c + stackSaw c d.toEntry + ·) hsum
  have hlooks : Looks c d → Looks c (d.goto p k) := by
    refine Or.imp id fun ⟨q, hq⟩ => ⟨q, ?_⟩
    by_cases hqp : q = p
    · rw [hqp, haway] at hq
      cases c <;> exact absurd hq id
    · rwa [goto_thread_of_ne hqp]
  rw [wakeable_iff, hwaiting, htokens]
  rw [wakes, le_max_iff] at h
  by_cases hl : Looks c d
  · rw [if_pos hl] at h
    exact h.imp id fun hone => ⟨hone, hlooks hl⟩
  · rw [if_neg hl] at h
    left
    omega

/-- After a `pico_socket_read` that fills its buffer its thread looks. -/
theorem wakeable_fills {d d' : Desc n} {p : Fin n} {buf : Buffer} {len : ℤ} (hw : Wf d)
    (hpc : d.thread p = .sockRead buf len) (hfills : readFills d.socket buf len)
    (hone : waiting .read d ≤ 1) (hs : threadStep d p = some d') : Wakeable .read d' := by
  have hr := hw.range p
  rw [hpc] at hr
  have hfull := (picoSocketRead_spec hw.sound hr.1 hr.2).fills.mpr hfills
  simp only [threadStep, hpc, Option.some.injEq] at hs
  subst hs
  rw [if_pos hfull.symm, wakeable_iff]
  refine .inr ⟨?_, .inr ⟨p, by simp only [goto_thread_self]; trivial⟩⟩
  have hsum := sum_update (waits .read) d.thread (Finset.mem_univ p)
    (.readUnlock (picoSocketRead d.socket buf len).2.1)
  rw [hpc] at hsum
  exact (le_of_eq hsum).trans hone

/-- An event that does not end what the semaphore stands for leaves it alive. -/
theorem dead_event {c : Sem} {d : Desc n} {e : Event} {s : PicoSocket} {evs : List (BitVec 16)}
    {ops : List Op} (hw : Wf d) (he : event d.socket e = some (s, evs)) (hends : ¬ Ends c d e)
    (hdead : Dead c { d with socket := s, todo := ops }) : Dead c d := by
  have hdel : ∀ ev, e ≠ .del ev := by
    rintro ev rfl
    exact hends trivial
  have hstay := event_stays hw.sound he hdel
  cases c with
  | accept => exact fun hl => hdead (hstay.listen.mpr hl)
  | read =>
    rcases hdead with hin | hclosed | ⟨hpeer, hempty⟩
    · exact .inl hin
    · exact .inr (.inl (hstay.closed.symm.trans hclosed))
    · have hout := event_spec hw.sound he
      have hrd : ¬ announces picoSockEvRd evs := fun hrd => hempty (hout.fresh hrd)
      have hpeer : peerClosed s = true := hpeer
      rw [hout.data hrd] at hempty
      rcases (hstay.peerClosed hrd).mp hpeer with hfin | hpeer
      · cases e with
        | fin seq => exact absurd ⟨rfl, hfin, hempty⟩ hends
        | _ => exact absurd hfin id
      · exact .inr (.inr ⟨hpeer, hempty⟩)

/-- A thread's step ends nothing, except that a read takes the last bytes before a FIN. -/
theorem dead_threadStep {c : Sem} {d d' : Desc n} {p : Fin n} (hw : Wf d)
    (hs : threadStep d p = some d') (hdead : Dead c d') : Dead c d ∨
      (c = .read ∧ ∃ buf len, d.thread p = .sockRead buf len ∧ peerClosed d.socket = true ∧
        ¬ readLeaves d.socket buf len) := by
  obtain ⟨-, -, hin, hkind⟩ := threadStep_kept hw hs
  have hr := hw.range p
  cases c with
  | accept => exact .inl fun hl => hdead (hkind.listen.mpr hl)
  | read =>
    rcases hdead with ht | hclosed | ⟨hpeer, hempty⟩
    · exact .inl (.inl (hin.symm.trans ht))
    · exact .inl (.inr (.inl (hkind.closed.symm.trans hclosed)))
    · have hpeer' := hkind.peerClosed.symm.trans hpeer
      by_cases hpc : ∃ buf len, d.thread p = .sockRead buf len
      · obtain ⟨buf, len, hpc⟩ := hpc
        rw [hpc] at hr
        simp only [threadStep, hpc, Option.some.injEq] at hs
        subst hs
        rw [(picoSocketRead_spec hw.sound hr.1 hr.2).leaves] at hempty
        exact .inr ⟨rfl, buf, len, hpc, hpeer', hempty⟩
      · rw [threadStep_hasData hw (fun buf len hp => hpc ⟨buf, len, hp⟩) hs] at hempty
        exact .inl (.inr (.inr ⟨hpeer', hempty⟩))

/-- The law of both semaphores: whoever waits for a dead event wakes. -/
structure Kept (d : Desc n) : Prop where
  wf : Wf d
  wakeable : ∀ c, Dead c d → Wakeable c d

/-- STEP: every step that strands nobody keeps the law. -/
theorem kept_step {d d' : Desc n} {a : Act n} (h : Kept d) (ha : Heeded d a)
    (hs : step d a = some d') : Kept d' := by
  refine ⟨wf_step h.wf hs, ?_⟩
  intro c hdead
  cases step_move hs with
  | event e s evs hidle he =>
    refine wakeable_event ?_ hidle s _
    by_cases hends : Ends c d e
    · exact ha c hends
    · exact h.wakeable c (dead_event h.wf he hends hdead)
  | stack e he =>
    refine wakeable_stack (h.wakeable c ?_) he
    cases c with
    | accept => exact hdead
    | read => exact hdead.imp (fun ht => (stackStep_inTable he).symm.trans ht) id
  | read p buf len hin haway =>
    cases c with
    | read => exact wakeable_call haway rfl (ha hdead)
    | accept => exact wakeable_call haway rfl (h.wakeable .accept hdead)
  | accept p hin haway =>
    cases c with
    | read => exact wakeable_call haway rfl (h.wakeable .read hdead)
    | accept => exact wakeable_call haway rfl (ha hdead)
  | thread p d' hs =>
    rcases dead_threadStep h.wf hs hdead with hold | ⟨rfl, buf, len, hpc, hpeer, hleaves⟩
    · exact wakeable_threadStep (h.wakeable c hold) hs
    · rw [Heeded, hpc] at ha
      rcases ha hpeer hleaves with hwake | ⟨hone, hfills⟩
      · exact wakeable_threadStep hwake hs
      · exact wakeable_fills h.wf hpc hfills hone hs
  | close b => exact ha c

theorem kept_register {s : PicoSocket} (hs : Sound s) : Kept (register s n) := by
  refine ⟨wf_register hs, fun c _ => wakeable_iff.mpr (.inl ?_)⟩
  rw [waiting, Finset.sum_eq_zero fun p _ => by cases c <;> rfl]
  exact Nat.zero_le _

/-- Nobody waits in vain: a waiter that is to wake finds a token or a notification outstanding. -/
theorem not_stuck {c : Sem} {d : Desc n} {p : Fin n} (h : Dead c d → Wakeable c d) :
    ¬ Stuck c d p := by
  rintro ⟨hwaits, hdead, hzero, hout⟩
  rw [Outstanding, not_or, not_or] at hout
  obtain ⟨hlooks, hhalf, hsaw⟩ := hout
  have hpos : 0 < waiting c d := hwaits.trans_le
    (Finset.single_le_sum (f := fun q => waits c (d.thread q)) (fun _ _ => Nat.zero_le _)
      (Finset.mem_univ p))
  have hnone : ∑ q, sawZero c (d.thread q) = 0 :=
    Finset.sum_eq_zero fun q _ => Nat.eq_zero_of_not_pos fun hq => hsaw ⟨q, hq⟩
  have htokens : tokens c d = 0 := by rw [tokens, stackSaw, if_neg hhalf, hnone, hzero]
  rcases wakeable_iff.mp (h hdead) with hw | ⟨-, hl⟩
  · omega
  · exact hlooks hl

/-- A thread waits in `read()`, and the peer closes. -/
def waitForFin : List (Act 1) := [.read 0 .valid 10, .event (.fin 0), .stack]

theorem waitForFin_runs :
    (run step (register (connectedSocket 0) 1) waitForFin).isSome := by decide +kernel

/-- Three bytes and a FIN arrive while a thread waits in `read()`; it takes all of them. -/
def readToFin : List (Act 1) :=
  .read 0 .valid 3 :: .event (.segment (.ofBytes 0 [1, 2, 3]) 0) :: List.replicate 5 .stack ++
    .event (.fin 3) :: List.replicate 9 (.thread 0) ++ .read 0 .valid 3 :: List.replicate 2 (.thread 0)

theorem readToFin_runs :
    (run step (register (connectedSocket 0) 1) readToFin).isSome := by decide +kernel

end FdPicotcp.Blocked
