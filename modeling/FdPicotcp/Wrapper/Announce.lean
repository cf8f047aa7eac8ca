import FdPicotcp.Wrapper.Descriptor

/-! Both semaphores of a descriptor follow the token protocol.

    For `read_sem` the channel is ready while bytes or datagrams are queued, for `accept_sem` while
    an established connection waits. The stack thread is one party, each application thread another.
    `label` names the abstract step of every concrete one and `step_label` is the simulation; what
    the token library says about credit then holds of the wrapper. -/

namespace FdPicotcp.Announce
open Socket Elem Descriptor

variable {n : ℕ}

/-- What the tokens of a semaphore announce. -/
def Ready : Sem → PicoSocket → Prop
  | .read, s => hasData s
  | .accept, s => hasChild s

def stackPhase (c : Sem) (half : Option (Sem × ℕ)) (todo : List Op) : Token.Phase :=
  if Owes c todo then .owes
  else match half with
    | some (c', v) => if c' = c then .saw v else .out
    | none => .out

def threadPhase : Sem → ThreadPc → Token.Phase
  | .read, .drainTest _ _ | .read, .drainRead _ _ | .read, .drainCount _ _ _ | .read, .sockRead _ _
  | .read, .readUnlock _ => .owes
  | .read, .readPost _ v => .saw v
  | .accept, .sockAccept => .owes
  | _, _ => .out

/-- The descriptor as a token protocol; the stack thread is the party `none`. -/
def abs (c : Sem) (d : Desc n) : Token.St (Option (Fin n)) where
  ready := Ready c d.socket
  value := d.sem c
  party
    | none => stackPhase c d.half d.todo
    | some p => threadPhase c (d.thread p)

/-- The token step of the stack thread. -/
def stackLabel (c : Sem) (d : Desc n) : Option (Token.Label (Option (Fin n))) :=
  match d.half, d.todo with
  | some (c', v), todo =>
    if c' = c then
      if Owes c todo then if 0 < v then none else some (.post none) else some (.settle none)
    else none
  | none, .unlockSem c' :: ops => if c' = c ∧ ¬ Owes c ops then some (.look none) else none
  | none, _ => none

/-- The token step of an application thread. -/
def threadLabel (c : Sem) (d : Desc n) (p : Fin n) : Option (Token.Label (Option (Fin n))) :=
  match c, d.thread p with
  | .read, .readWait _ _ => some (.acquire (some p))
  | .read, .sockRead buf len =>
    some (.take (some p) (readLeaves d.socket buf len) (decide (readFills d.socket buf len)))
  | .read, .readUnlock _ => some (.look (some p))
  | .read, .readPost _ _ => some (.settle (some p))
  | .accept, .acceptWait => some (.acquire (some p))
  | .accept, .sockAccept => some (.take (some p) (acceptLeaves d.socket) false)
  | _, _ => none

/-- The token step of a concrete one; `none` is a stutter. -/
def label (c : Sem) (d : Desc n) : Act n → Option (Token.Label (Option (Fin n)))
  | .event e => (event d.socket e).bind fun (s, evs) =>
    if Owes c (evs.map .lookup) then some (.supply none (Ready c s)) else none
  | .stack => stackLabel c d
  | .thread p => threadLabel c d p
  | _ => none

/-- The simulation relation between a concrete step and its label. -/
def Matches (c : Sem) (d d' : Desc n) : Option (Token.Label (Option (Fin n))) → Prop
  | none => abs c d' = abs c d
  | some l => Token.step (abs c d) l = some (abs c d')

/-- A step of one application thread moves one party. -/
theorem abs_thread (c : Sem) {d d' : Desc n} {p : Fin n} {k : ThreadPc}
    (ht : d'.thread = Function.update d.thread p k) (hhalf : d'.half = d.half)
    (htodo : d'.todo = d.todo) :
    abs c d' = { (abs c d).move (some p) (threadPhase c k) with
      ready := Ready c d'.socket
      value := d'.sem c } := by
  rw [abs, Token.St.mk.injEq]
  refine ⟨rfl, rfl, funext ?_⟩
  intro q
  cases q with
  | none =>
    rw [Token.move_party_of_ne (by simp)]
    simp only [abs, hhalf, htodo]
  | some q =>
    by_cases hq : q = p
    · rw [hq, Token.move_party_self]
      simp only [ht, Function.update_self]
    · rw [Token.move_party_of_ne (by simpa using hq)]
      simp only [abs, ht, Function.update_of_ne hq]

/-- A step of the stack thread moves the other. -/
theorem abs_stack (c : Sem) {d d' : Desc n} (ht : d'.thread = d.thread) :
    abs c d' = { (abs c d).move none (stackPhase c d'.half d'.todo) with
      ready := Ready c d'.socket
      value := d'.sem c } := by
  rw [abs, Token.St.mk.injEq]
  refine ⟨rfl, rfl, funext ?_⟩
  intro q
  cases q with
  | none => rw [Token.move_party_self]
  | some q =>
    rw [Token.move_party_of_ne (by simp), ht]
    rfl

theorem matches_thread {c : Sem} {d d' : Desc n} {p : Fin n} {k : ThreadPc}
    {l : Token.Label (Option (Fin n))} (ht : d'.thread = Function.update d.thread p k)
    (hhalf : d'.half = d.half) (htodo : d'.todo = d.todo)
    (hs : Token.step (abs c d) l = some { (abs c d).move (some p) (threadPhase c k) with
      ready := Ready c d'.socket
      value := d'.sem c }) : Matches c d d' (some l) :=
  hs.trans (congrArg some (abs_thread c ht hhalf htodo).symm)

theorem matches_stack {c : Sem} {d d' : Desc n} {l : Token.Label (Option (Fin n))}
    (ht : d'.thread = d.thread)
    (hs : Token.step (abs c d) l = some { (abs c d).move none (stackPhase c d'.half d'.todo) with
      ready := Ready c d'.socket
      value := d'.sem c }) : Matches c d d' (some l) :=
  hs.trans (congrArg some (abs_stack c ht).symm)

/-- A step that changes neither phase, value nor readiness is a stutter. -/
theorem stutter_thread (c : Sem) {d d' : Desc n} {p : Fin n} {k : ThreadPc}
    (ht : d'.thread = Function.update d.thread p k) (hhalf : d'.half = d.half)
    (htodo : d'.todo = d.todo) (hphase : threadPhase c (d.thread p) = threadPhase c k)
    (hready : Ready c d'.socket ↔ Ready c d.socket) (hvalue : d'.sem c = d.sem c) :
    abs c d' = abs c d := by
  rw [abs_thread c ht hhalf htodo, Token.move_self (by exact hphase), propext hready, hvalue]
  rfl

theorem stutter_stack (c : Sem) {d d' : Desc n} (ht : d'.thread = d.thread)
    (hphase : stackPhase c d.half d.todo = stackPhase c d'.half d'.todo)
    (hready : Ready c d'.socket ↔ Ready c d.socket) (hvalue : d'.sem c = d.sem c) :
    abs c d' = abs c d := by
  rw [abs_stack c ht, Token.move_self (by exact hphase), propext hready, hvalue]
  rfl

/-- The threads follow the protocol. -/
theorem threadStep_label (c : Sem) {d d' : Desc n} {p : Fin n} (hw : Wf d)
    (hs : threadStep d p = some d') : Matches c d d' (threadLabel c d p) := by
  obtain ⟨pc, hpc, hm⟩ := threadStep_move hs
  have hr := hw.range p
  rw [hpc] at hr
  rw [threadLabel.eq_def, hpc]
  cases hm with
  | readWait buf len hpos =>
    cases c with
    | read =>
      refine matches_thread (k := .drainTest buf len) rfl rfl rfl ?_
      rw [Token.step, if_pos (by exact hpos)]
      simp only [Function.update_self]
      rfl
    | accept =>
      exact stutter_thread (k := .drainTest buf len) _ rfl rfl rfl (by rw [hpc]; rfl) .rfl rfl
  | drainTest buf len =>
    have hphase : ∀ c, threadPhase c (d.thread p) =
        threadPhase c (if 0 < d.fdWriteCount then .drainRead buf len else .sockRead buf len) := by
      intro c
      rw [hpc]
      cases c <;> split <;> rfl
    cases c <;> exact stutter_thread _ rfl rfl rfl (hphase _) .rfl rfl
  | drainRead buf len hpos =>
    cases c <;>
      exact stutter_thread (k := .drainCount buf len _) _ rfl rfl rfl (by rw [hpc]; rfl) .rfl rfl
  | drainCount buf len k =>
    cases c <;>
      exact stutter_thread (k := .drainTest buf len) _ rfl rfl rfl (by rw [hpc]; rfl) .rfl rfl
  | sockRead buf len =>
    obtain ⟨-, hshape, hleaves, hfills⟩ := picoSocketRead_spec hw.sound hr.1 hr.2
    cases c with
    | read =>
      refine matches_thread (k := if len = _ then .readUnlock _ else .readDone _) rfl rfl rfl ?_
      rw [Token.step, if_pos (by simp only [abs, hpc, threadPhase])]
      congr 1
      rw [Token.St.mk.injEq]
      refine ⟨propext hleaves.symm, rfl, ?_⟩
      congr 2
      by_cases hf : readFills d.socket buf len
      · rw [decide_eq_true hf, if_pos rfl, if_pos (hfills.mpr hf).symm]
        rfl
      · rw [decide_eq_false hf, if_neg (by simp), if_neg fun h => hf (hfills.mp h.symm)]
        rfl
    | accept =>
      refine stutter_thread (k := if len = _ then .readUnlock _ else .readDone _) _ rfl rfl rfl ?_
        hshape.hasChild rfl
      rw [hpc]
      split <;> rfl
  | readUnlock ret =>
    cases c with
    | read =>
      refine matches_thread (k := .readPost ret (d.sem .read)) rfl rfl rfl ?_
      rw [Token.step, if_pos (by simp only [abs, hpc, threadPhase])]
      rfl
    | accept =>
      exact stutter_thread (k := .readPost ret (d.sem .read)) _ rfl rfl rfl (by rw [hpc]; rfl) .rfl
        rfl
  | readPost ret v =>
    cases c with
    | read =>
      have hparty : (abs .read d).party (some p) = .saw v := by simp only [abs, hpc, threadPhase]
      refine matches_thread (k := .readDone ret) rfl rfl rfl ?_
      simp only [Token.step, hparty, postUnless_self]
      rfl
    | accept =>
      exact stutter_thread (k := .readDone ret) _ rfl rfl rfl (by rw [hpc]; rfl) .rfl
        (postUnless_of_ne (by decide) ..)
  | acceptWait hpos =>
    cases c with
    | accept =>
      refine matches_thread (k := .sockAccept) rfl rfl rfl ?_
      rw [Token.step, if_pos (by exact hpos)]
      simp only [Function.update_self]
      rfl
    | read => exact stutter_thread (k := .sockAccept) _ rfl rfl rfl (by rw [hpc]; rfl) .rfl rfl
  | sockAccept =>
    obtain ⟨-, hdata, hchild, -⟩ := picoSocketAccept_spec hw.sound
    cases c with
    | accept =>
      refine matches_thread (k := .acceptDone _) rfl rfl rfl ?_
      rw [Token.step, if_pos (by simp only [abs, hpc, threadPhase])]
      simp only [Ready, hchild]
      rfl
    | read =>
      exact stutter_thread (k := .acceptDone _) _ rfl rfl rfl (by rw [hpc]; rfl) hdata rfl
  | readDone | acceptDone =>
    cases c <;> exact stutter_thread (k := .away) _ rfl rfl rfl (by rw [hpc]; rfl) .rfl rfl

/-- The stack thread follows the protocol while the descriptor is in the table. -/
theorem stackStep_label (c : Sem) {d : Desc n} {e : Entry} (ht : d.inTable)
    (hs : stackStep d.toEntry = some e) :
    Matches c d { d with toEntry := e } (stackLabel c d) := by
  rw [stackLabel.eq_def]
  have hparty : (abs c d).party none = stackPhase c d.half d.todo := rfl
  cases stackStep_move hs with
  | post c' v hhalf =>
    rw [hhalf] at hparty
    simp only [hhalf]
    by_cases hc : c' = c
    · subst hc
      by_cases ho : Owes c' d.todo
      · have hphase : stackPhase c' d.half d.todo = stackPhase c' none d.todo := by
          simp only [stackPhase, if_pos ho]
        simp only [if_pos ho, if_true]
        by_cases hv : 0 < v
        · rw [if_pos hv]
          exact stutter_stack _ rfl hphase .rfl (by simp only [postUnless_self, if_pos hv])
        · rw [if_neg hv]
          refine matches_stack rfl ?_
          rw [Token.step, if_pos (by rw [hparty, stackPhase, if_pos ho])]
          simp only [postUnless_self, if_neg hv, ← hphase]
          rw [Token.move_self (by rfl)]
          rfl
      · simp only [if_neg ho, if_true]
        have hsaw : (abs c' d).party none = .saw v := by
          rw [hparty, stackPhase, if_neg ho]
          simp only [if_true]
        refine matches_stack rfl ?_
        simp only [Token.step, hsaw, postUnless_self, stackPhase, if_neg ho]
        rfl
    · simp only [if_neg hc]
      refine stutter_stack _ rfl ?_ .rfl (postUnless_of_ne (Ne.symm hc) ..)
      simp only [stackPhase, hhalf, if_neg hc]
  | lookup ev ops hhalf htodo =>
    simp only [hhalf, htodo]
    refine stutter_stack _ rfl ?_ .rfl rfl
    simp only [stackPhase, hhalf, htodo, ht, owes_append, owes_handleWakeup, owes_cons, Op.posts]
  | unlockSem c' ops hhalf htodo =>
    simp only [hhalf, htodo]
    by_cases hc : c' = c
    · subst hc
      by_cases ho : Owes c' ops
      · simp only [ho, not_true_eq_false, and_false, if_false]
        refine stutter_stack _ rfl ?_ .rfl rfl
        simp only [stackPhase, htodo, owes_cons, ho, or_true, if_true]
      · simp only [ho, not_false_eq_true, and_self, if_true]
        refine matches_stack rfl ?_
        rw [Token.step, if_pos]
        · simp only [stackPhase, if_neg ho, if_true]
          rfl
        · simp [hparty, stackPhase, htodo, Op.posts]
    · simp only [hc, false_and, if_false]
      refine stutter_stack _ rfl ?_ .rfl rfl
      simp only [stackPhase, htodo, hhalf, owes_cons, Op.posts, hc, false_or, if_false]
  | writePipe ops hhalf htodo hroom =>
    simp only [hhalf, htodo]
    refine stutter_stack _ rfl ?_ .rfl rfl
    simp only [stackPhase, hhalf, htodo, owes_cons, Op.posts, false_or]
  | incCount ops hhalf htodo =>
    simp only [hhalf, htodo]
    refine stutter_stack _ rfl ?_ .rfl rfl
    simp only [stackPhase, hhalf, htodo, owes_cons, Op.posts, false_or]

/-- An event supplies the channels it announces. -/
theorem event_label (c : Sem) {d : Desc n} {e : Event} {s : PicoSocket} {evs : List (BitVec 16)}
    (hw : Wf d) (hidle : Idle d.toEntry) (he : event d.socket e = some (s, evs)) :
    Matches c d { d with socket := s, todo := evs.map .lookup } (label c d (.event e)) := by
  obtain ⟨hhalf, htodo⟩ := hidle
  simp only [label, he, Option.bind_some]
  by_cases ho : Owes c (evs.map .lookup)
  · rw [if_pos ho]
    refine matches_stack rfl ?_
    simp only [Token.step, stackPhase, if_pos ho]
    rfl
  · rw [if_neg ho]
    obtain ⟨-, -, hdata, -, hchild⟩ := event_spec hw.sound he
    refine stutter_stack _ rfl ?_ ?_ rfl
    · simp [stackPhase, hhalf, htodo, ho]
    · rw [owes_lookup] at ho
      cases c with
      | read => exact hdata ho
      | accept => exact hchild ho

/-- SIMULATION: while the descriptor is in the table every step is its token step, or none. -/
theorem step_label (c : Sem) {d d' : Desc n} {a : Act n} (hw : Wf d) (ht : d.inTable)
    (hs : step d a = some d') (hopen : d'.inTable) : Matches c d d' (label c d a) := by
  cases step_move hs with
  | event e s evs hidle he => exact event_label c hw hidle he
  | stack e he => exact stackStep_label c ht he
  | read p buf len hin haway =>
    cases c <;> exact stutter_thread _ rfl rfl rfl (by rw [haway]; rfl) .rfl rfl
  | accept p hin haway =>
    cases c <;> exact stutter_thread _ rfl rfl rfl (by rw [haway]; rfl) .rfl rfl
  | thread p d' hs => exact threadStep_label c hw hs
  | close outEmpty => cases hopen

/-- Only `pico_socket_read` and `pico_socket_accept` take from a channel. -/
theorem label_take {c : Sem} {d : Desc n} {a : Act n} {q : Option (Fin n)} {r : Prop} {again : Bool}
    (hl : label c d a = some (.take q r again)) : ∃ p, a = .thread p ∧ q = some p ∧
      ((c = .read ∧ ∃ buf len, d.thread p = .sockRead buf len ∧ r = readLeaves d.socket buf len ∧
          again = decide (readFills d.socket buf len)) ∨
        (c = .accept ∧ d.thread p = .sockAccept ∧ r = acceptLeaves d.socket ∧ again = false)) := by
  cases a with
  | event e =>
    simp only [label, Option.bind_eq_some_iff] at hl
    obtain ⟨⟨s, evs⟩, -, hl⟩ := hl
    split at hl <;> simp at hl
  | stack =>
    simp only [label, stackLabel.eq_def] at hl
    split at hl <;> (try split at hl) <;> (try split at hl) <;> (try split at hl) <;> simp at hl
  | thread p =>
    simp only [label, threadLabel.eq_def] at hl
    split at hl
    case h_2 buf len hpc =>
      simp only [Option.some.injEq, Token.Label.take.injEq] at hl
      obtain ⟨rfl, rfl, rfl⟩ := hl
      exact ⟨p, rfl, rfl, .inl ⟨rfl, buf, len, hpc, rfl, rfl⟩⟩
    case h_6 hpc =>
      simp only [Option.some.injEq, Token.Label.take.injEq] at hl
      obtain ⟨rfl, rfl, rfl⟩ := hl
      exact ⟨p, rfl, rfl, .inr ⟨rfl, hpc, rfl, rfl⟩⟩
    all_goals simp at hl
  | read p buf len | accept p | close b => simp [label] at hl

theorem stackLabel_quiet (c : Sem) (d : Desc n) : ∀ l ∈ stackLabel c d, l.Quiet := by
  intro l hl
  simp only [stackLabel.eq_def, Option.mem_def] at hl
  split at hl
  · split at hl
    · split at hl
      · split at hl
        · cases hl
        · cases hl; trivial
      · cases hl; trivial
    · cases hl
  · split at hl
    · cases hl; trivial
    · cases hl
  · cases hl

/-- A step with a quiet label, or none, changes neither readiness nor credit. -/
theorem quiet_step {c : Sem} {d d' : Desc n} {o : Option (Token.Label (Option (Fin n)))}
    (hm : Matches c d d' o) (hq : ∀ l ∈ o, l.Quiet) :
    (Ready c d'.socket ↔ Ready c d.socket) ∧
      (Token.Credit (abs c d') ↔ Token.Credit (abs c d)) := by
  cases o with
  | none =>
    rw [Matches] at hm
    have hready : (abs c d').ready = (abs c d).ready := by rw [hm]
    exact ⟨iff_of_eq hready, by rw [hm]⟩
  | some l =>
    obtain ⟨hready, hcredit⟩ := Token.quiet_step (hq l rfl) hm
    exact ⟨iff_of_eq hready, hcredit⟩

/-- An announced event gives credit, any other leaves it as it is. -/
theorem credit_event (c : Sem) {d : Desc n} {e : Event} {s : PicoSocket} {evs : List (BitVec 16)}
    (hw : Wf d) (hidle : Idle d.toEntry) (he : event d.socket e = some (s, evs)) :
    Token.Credit (abs c { d with socket := s, todo := evs.map .lookup }) ↔
      announces (eventOf c) evs ∨ Token.Credit (abs c d) := by
  have hm := event_label c hw hidle he
  simp only [label, he, Option.bind_some] at hm
  rw [← owes_lookup]
  by_cases ha : Owes c (evs.map .lookup)
  · rw [if_pos ha] at hm
    exact iff_of_true (Token.credit_supply hm) (.inl ha)
  · rw [if_neg ha] at hm
    rw [(quiet_step hm (by simp)).2]
    exact (or_iff_right ha).symm

/-- The descriptor stays in the table and every token step of the run is fair. -/
def FairOpen (c : Sem) (d : Desc n) (a : Act n) : Prop :=
  (∀ b, a ≠ .close b) ∧ ∀ l ∈ label c d a, Token.Fair (abs c d) l

/-- RUN: along fair runs no wake-up of the semaphore is lost. -/
theorem covered_run (c : Sem) {d d' : Desc n} {as : List (Act n)} (hw : Wf d) (ht : d.inTable)
    (hc : Token.Covered (abs c d)) (hm : Transition.Meets step (FairOpen c) d as)
    (hr : Transition.run step d as = some d') : Token.Covered (abs c d') := by
  have hpath : Transition.Path Token.step Token.Fair (abs c d) (abs c d') := by
    have hkeep : ∀ (d : Desc n) (a : Act n) (d' : Desc n), Wf d ∧ d.inTable → FairOpen c d a →
        step d a = some d' → Wf d' ∧ d'.inTable := by
      rintro d a d' ⟨hw, ht⟩ ⟨hopen, -⟩ hs
      exact ⟨wf_step hw hs, (inTable_step hw hopen hs).trans ht⟩
    refine Transition.simulate (abs c) hkeep ?_ ⟨hw, ht⟩ hm hr
    · rintro d a d' ⟨hw, ht⟩ ⟨hopen, hfair⟩ hs
      have hmatch := step_label c hw ht hs ((inTable_step hw hopen hs).trans ht)
      cases hl : label c d a with
      | none =>
        rw [hl] at hmatch
        exact hmatch ▸ .refl _
      | some l =>
        rw [hl] at hmatch
        exact .single (hfair l hl) hmatch
  exact Token.covered_path hpath hc

/-- What is ready when the descriptor is registered is announced by the events still to come. -/
theorem covered_registerOwed (c : Sem) {s : PicoSocket} {evs : List (BitVec 16)}
    (h : Ready c s → announces (eventOf c) evs) :
    Token.Covered (abs c (registerOwed s evs n)) := by
  intro hr
  have howes : Owes c (evs.map .lookup) := (owes_lookup c evs).mpr (h hr)
  refine .inr ⟨none, ?_⟩
  simp only [abs, stackPhase, registerOwed, howes, if_true]
  trivial

theorem covered_register (c : Sem) {s : PicoSocket} (h : ¬ Ready c s) :
    Token.Covered (abs c (register s n)) :=
  have hevs : Ready c s → announces (eventOf c) [] := fun hr => absurd hr h
  covered_registerOwed c hevs

/-- In an idle state nobody owes a post of the semaphore. -/
theorem not_owing {c : Sem} {d : Desc n} (hidle : Idle d.toEntry)
    (hthreads : ∀ p, threadPhase c (d.thread p) = .out) :
    ∀ q, ¬ ((abs c d).party q).Owing
  | none => by
    obtain ⟨hhalf, htodo⟩ := hidle
    simp [abs, stackPhase, hhalf, htodo, Token.Phase.Owing]
  | some p => by
    simp [abs, hthreads p, Token.Phase.Owing]

end FdPicotcp.Announce
