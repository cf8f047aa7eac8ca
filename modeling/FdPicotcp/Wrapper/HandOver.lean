import FdPicotcp.Lib.Transition
import FdPicotcp.Wrapper.Elem

/-! Is an event lost while `accept()` takes a connection over?

    As long as a child has a parent the stack keeps its pending events and delivers them again in
    every round. `pico_socket_accept` clears the parent; the wrapper stores the child in `fd_table`
    two steps later, and until then `handle_wakeup` drops what it is called with. `Kept` says where
    the announcement of unread bytes is at any time, and `Heard` excludes the two ways to lose it. -/

namespace FdPicotcp.HandOver
open Transition TcpQueue Socket Elem

/-- What the stack thread does with the child when the callback it is in has returned. -/
inductive StackPc where
  | rest
  /-- the end of `pico_tcp_input`: `if (s->ev_pending) tcp_wakeup_pending(...)` -/
  | wakeupPending
  /-- `if ((s->ev_pending) && s->wakeup) { s->wakeup(s->ev_pending, s);` -/
  | redeliver
  /-- `if(!s->parent) s->ev_pending = 0; }` -/
  | clear
  deriving DecidableEq

/-- The thread in `fd_pico_socket_accept` after its `sem_wait`. -/
inductive AcceptPc where
  | sockAccept
  | pipe
  | elemCreate
  | ret
  | done (fd : Bool)
  deriving DecidableEq

/-- A child socket, its entry once there is one, and the two threads. -/
structure ChildSocket extends Entry where
  socket : PicoSocket
  evPending : BitVec 16
  parent : Bool
  stack : StackPc
  accept : AcceptPc

/-- A step of the stack for the child, or of the accepting thread. -/
inductive Act where
  /-- `socket_tcp_do_deliver` of a frame: whether it completes the handshake, acknowledges data,
      carries a FIN; `f` is its sequence number and its data -/
  | deliver (first ack fin : Bool) (f : TcpInputSegment)
  /-- the child's turn in `pico_sockets_loop_tcp` -/
  | loop
  | stack
  /-- the next step of the accepting thread; `ok` is what `fd_elem_create` meets -/
  | accept (ok : Bool)
  deriving DecidableEq

/-- `tcp_first_ack` of the child; the `EV_CONN` is its listener's. -/
def tcpFirstAck (c : ChildSocket) : ChildSocket :=
  { c with
    socket := { c.socket with
      state := .established
      tcp := { c.socket.tcp with rcvProcessed := c.socket.tcp.rcvNxt } }
    evPending := c.evPending ||| picoSockEvWr }

/-- `tcp_ack` of data that was sent. -/
def tcpAck (c : ChildSocket) : ChildSocket := { c with evPending := c.evPending ||| picoSockEvWr }

/-- `tcp_data_in_expected` with its effect on `ev_pending`. -/
def tcpDataIn (c : ChildSocket) (f : TcpInputSegment) : ChildSocket :=
  match tcpDataInExpected c.socket.tcp f with
  | (t, true) =>
    { c with socket := { c.socket with tcp := t }, evPending := c.evPending ||| picoSockEvRd }
  | (_, false) => c

/-- `tcp_attempt_closewait`, which calls back with `EV_CLOSE` at once. -/
def tcpClosewait (c : ChildSocket) (seq : BitVec 32) : ChildSocket :=
  let (s, close) := tcpAttemptClosewait c.socket seq
  { c with socket := s, todo := if close then [.lookup picoSockEvClose] else [] }

/-- `pico_tcp_input`: the ACK, the data, then the FIN. -/
def picoTcpInput (c : ChildSocket) (first ack fin : Bool) (f : TcpInputSegment) : ChildSocket :=
  let c := if first then tcpFirstAck c else if ack then tcpAck c else c
  let c := if 0 < f.payloadLen then tcpDataIn c f else c
  if fin then tcpClosewait c f.seq else c

/-- The frames the child handles so: one ACK completes the handshake, the FIN comes after it, and
    nothing but ACKs after the FIN. -/
def Handled (s : PicoSocket) (first fin : Bool) (f : TcpInputSegment) : Prop :=
  (first → s.state = .synRecv) ∧ (fin → s.state = .established) ∧
    (fin ∨ 0 < f.payloadLen → (s.state = .synRecv ∨ s.state = .established) ∧ peerClosed s = false)

instance (s : PicoSocket) (first fin : Bool) (f : TcpInputSegment) :
    Decidable (Handled s first fin f) := inferInstanceAs (Decidable (_ ∧ _ ∧ _))

/-- Call back with the pending events, if there are any. -/
def callback (c : ChildSocket) (called skipped : StackPc) : ChildSocket :=
  if c.evPending ≠ 0 then { c with todo := [.lookup c.evPending], stack := called }
  else { c with stack := skipped }

/-- The stack thread between two callbacks. -/
def stackNext (c : ChildSocket) : Option ChildSocket :=
  match c.stack with
  | .rest => none
  | .wakeupPending => some (callback c .redeliver .redeliver)
  | .redeliver => some (callback c .clear .rest)
  | .clear => some { c with evPending := if c.parent then c.evPending else 0, stack := .rest }

/-- The next step of the accepting thread. -/
def acceptStep (c : ChildSocket) (ok : Bool) : Option ChildSocket :=
  match c.accept with
  | .sockAccept =>
    if c.socket.state = .established then some { c with parent := false, accept := .pipe }
    else some { c with accept := .done false }
  | .pipe => some { c with accept := .elemCreate }
  | .elemCreate =>
    if ok then
      some { c with
        toEntry := { fdElemCreate with half := c.half, todo := c.todo }
        accept := .ret }
    else some { c with accept := .done false }
  | .ret => some { c with accept := .done true }
  | .done _ => none

/-- The child after a step. -/
def step (c : ChildSocket) : Act → Option ChildSocket
  | .deliver first ack fin f =>
    if Idle c.toEntry ∧ c.stack = .rest ∧ Handled c.socket first fin f then
      some { picoTcpInput c first ack fin f with stack := .wakeupPending }
    else none
  | .loop =>
    if Idle c.toEntry ∧ c.stack = .rest then some { c with stack := .redeliver } else none
  | .stack =>
    if Idle c.toEntry then stackNext c else (stackStep c.toEntry).map fun e => { c with toEntry := e }
  | .accept ok => acceptStep c ok

/-- The child that `tcp_syn` has cloned for a peer that starts at `seq`; it is in no entry. -/
def tcpSynChild (seq : BitVec 32) : ChildSocket where
  toEntry := { fdElemCreate with inTable := false }
  socket :=
    let s := picoSocketBind (picoSocketOpen .tcp)
    { s with state := .synRecv, tcp := { s.tcp with rcvNxt := seq + 1 } }
  evPending := 0
  parent := true
  stack := .rest
  accept := .sockAccept

/-- `EV_RD` is pending. -/
def Pending (c : ChildSocket) : Prop := c.evPending &&& picoSockEvRd ≠ 0

/-- A reader will learn of the bytes: posted, or to be delivered again. -/
def Delivered (c : ChildSocket) : Prop := unread c.socket.tcp ≠ [] → 1 ≤ c.sem .read ∨ Pending c

/-- The callback that announces unread bytes is the last before `ev_pending` may be cleared. -/
def AtStake (c : ChildSocket) : Prop := c.stack = .clear ∧ Pending c ∧ unread c.socket.tcp ≠ []

/-- The stack thread is about to search the table. -/
def LooksUp (e : Entry) : Prop :=
  match e.half, e.todo with
  | none, .lookup _ :: _ => True
  | _, _ => False

/-- The steps that lose nothing: a callback at stake finds the entry unless there is still a parent,
    and the parent is cleared only while the callback has the search before it. -/
def Heard (c : ChildSocket) : Act → Prop
  | .stack => AtStake c → c.parent = false → LooksUp c.toEntry → c.inTable
  | .accept _ => AtStake c → c.accept = .sockAccept → c.socket.state = .established →
    Owes .read c.todo
  | _ => True

instance (c : ChildSocket) : Decidable (Pending c) := inferInstanceAs (Decidable (_ ≠ _))

instance (c : ChildSocket) : Decidable (Delivered c) := inferInstanceAs (Decidable (_ → _ ∨ _))

instance (c : ChildSocket) : Decidable (AtStake c) := inferInstanceAs (Decidable (_ ∧ _ ∧ _))

instance (e : Entry) : Decidable (LooksUp e) := by
  unfold LooksUp; split <;> infer_instance

instance (c : ChildSocket) (a : Act) : Decidable (Heard c a) := by
  unfold Heard; split <;> infer_instance

/-- The semaphore is posted, or the `unlock_sem` under way posts it. -/
def Posted (e : Entry) : Prop := 1 ≤ e.sem .read ∨ e.half = some (.read, 0)

/-- What the hand-over keeps. -/
structure Kept (c : ChildSocket) : Prop where
  fresh : c.accept = .sockAccept ∨ c.accept = .pipe ∨ c.accept = .elemCreate → c.inTable = false
  found : c.inTable = false → .unlockSem .read ∉ c.todo
  young : c.socket.state = .synRecv → c.parent = true
  stays : c.parent = true → c.socket.tcp.tcpqIn.pool ≠ [] → Pending c
  events : unread c.socket.tcp ≠ [] → Pending c ∨ (c.inTable = true ∧ 1 ≤ c.sem .read)
  heard : AtStake c → c.parent = false →
    Owes .read c.todo ∨ (c.inTable = true ∧ Posted c.toEntry)

theorem or_rd_ne_zero (ev : BitVec 16) : (ev ||| picoSockEvRd) &&& picoSockEvRd ≠ 0 := by
  intro h
  have hbit := congrArg (·.getLsbD 0) h
  simp at hbit

theorem and_rd_or_wr {ev : BitVec 16} (h : ev &&& picoSockEvRd ≠ 0) :
    (ev ||| picoSockEvWr) &&& picoSockEvRd ≠ 0 := by
  rw [show (ev ||| picoSockEvWr) &&& picoSockEvRd = ev &&& picoSockEvRd by
    rw [BitVec.and_or_distrib_right]; simp]
  exact h

/-- What a frame may do: it takes back no event, and the queue changes only with an event, except
    that the handshake sets where reading starts. -/
structure InputOutcome (c c' : ChildSocket) : Prop where
  same : c'.inTable = c.inTable ∧ c'.sem = c.sem ∧ c'.accept = c.accept ∧ c'.parent = c.parent
  todo : .unlockSem .read ∉ c.todo → .unlockSem .read ∉ c'.todo
  state : c'.socket.state = .synRecv → c.socket.state = .synRecv
  pending : Pending c → Pending c'
  pool : Pending c' ∨ c'.socket.tcp.tcpqIn = c.socket.tcp.tcpqIn
  unread : Pending c' ∨ unread c'.socket.tcp = unread c.socket.tcp ∨ c.socket.state = .synRecv

theorem InputOutcome.refl (c : ChildSocket) : InputOutcome c c :=
  ⟨⟨rfl, rfl, rfl, rfl⟩, id, id, id, .inr rfl, .inr (.inl rfl)⟩

theorem InputOutcome.trans {c d e : ChildSocket} (h : InputOutcome c d) (h' : InputOutcome d e) :
    InputOutcome c e := by
  obtain ⟨hin, hsem, hacc, hpar⟩ := h.same
  obtain ⟨hin', hsem', hacc', hpar'⟩ := h'.same
  refine ⟨⟨hin'.trans hin, hsem'.trans hsem, hacc'.trans hacc, hpar'.trans hpar⟩,
    h'.todo ∘ h.todo, h.state ∘ h'.state, h'.pending ∘ h.pending, ?_, ?_⟩
  · rcases h.pool with hrd | hsame
    · exact .inl (h'.pending hrd)
    · exact h'.pool.imp id fun hsame' => hsame'.trans hsame
  · rcases h.unread with hrd | hsame | hsyn
    · exact .inl (h'.pending hrd)
    · exact h'.unread.imp id fun hrest => hrest.imp (·.trans hsame) h.state
    · exact .inr (.inr hsyn)

theorem tcpFirstAck_outcome {c : ChildSocket} (h : c.socket.state = .synRecv) :
    InputOutcome c (tcpFirstAck c) :=
  ⟨⟨rfl, rfl, rfl, rfl⟩, id, fun _ => h, and_rd_or_wr, .inr rfl, .inr (.inr h)⟩

theorem tcpAck_outcome (c : ChildSocket) : InputOutcome c (tcpAck c) :=
  ⟨⟨rfl, rfl, rfl, rfl⟩, id, id, and_rd_or_wr, .inr rfl, .inr (.inl rfl)⟩

theorem tcpDataIn_outcome (c : ChildSocket) (f : TcpInputSegment) :
    InputOutcome c (tcpDataIn c f) := by
  rw [tcpDataIn]
  split
  · have hrd := or_rd_ne_zero c.evPending
    exact ⟨⟨rfl, rfl, rfl, rfl⟩, id, id, fun _ => hrd, .inl hrd, .inl hrd⟩
  · exact .refl c

theorem tcpClosewait_outcome (c : ChildSocket) (seq : BitVec 32) :
    InputOutcome c (tcpClosewait c seq) := by
  obtain ⟨hq, hproc, hstate⟩ := tcpAttemptClosewait_kept c.socket seq
  refine ⟨⟨rfl, rfl, rfl, rfl⟩, ?_, hstate, id, .inr hq, .inr (.inl ?_)⟩
  · intro _
    simp only [tcpClosewait]
    split <;> simp
  · change unread (tcpAttemptClosewait c.socket seq).1.tcp = _
    rw [unread, readOff, hq, hproc]
    rfl

theorem picoTcpInput_outcome {c : ChildSocket} {first : Bool} (h : first → c.socket.state = .synRecv)
    (ack fin : Bool) (f : TcpInputSegment) : InputOutcome c (picoTcpInput c first ack fin f) := by
  have hack : InputOutcome c (if first then tcpFirstAck c else if ack then tcpAck c else c) := by
    split
    · next hfirst => exact tcpFirstAck_outcome (h hfirst)
    · split
      · exact tcpAck_outcome c
      · exact .refl c
  rw [picoTcpInput]
  generalize (if first then tcpFirstAck c else if ack then tcpAck c else c) = d at hack
  have hdata : InputOutcome d (if 0 < f.payloadLen then tcpDataIn d f else d) := by
    split
    · exact tcpDataIn_outcome d f
    · exact .refl d
  generalize (if 0 < f.payloadLen then tcpDataIn d f else d) = e at hdata
  split
  · exact (hack.trans hdata).trans (tcpClosewait_outcome e f.seq)
  · exact hack.trans hdata

/-- STEP, a frame arrives. -/
theorem kept_deliver {c c' : ChildSocket} (h : Kept c) (hin : InputOutcome c c') :
    Kept { c' with stack := .wakeupPending } := by
  obtain ⟨ht, hsem, hacc, hpar⟩ := hin.same
  have hstays : c'.parent = true → c'.socket.tcp.tcpqIn.pool ≠ [] → Pending c' := by
    rintro hp hpool
    rcases hin.pool with hrd | hsame
    · exact hrd
    · exact hin.pending (h.stays (hpar ▸ hp) (hsame ▸ hpool))
  refine ⟨fun hno => ht.trans (h.fresh (hacc ▸ hno)), fun hno => hin.todo (h.found (ht ▸ hno)),
    fun hs => hpar.trans (h.young (hin.state hs)), hstays, ?_, fun hstake => by cases hstake.1⟩
  intro hun
  rcases hin.unread with hrd | hsame | hsyn
  · exact .inl hrd
  · change Pending c' ∨ (c'.inTable = true ∧ 1 ≤ c'.sem .read)
    rw [ht, hsem]
    exact (h.events (hsame ▸ hun)).imp hin.pending id
  · refine .inl (hstays (hpar.trans (h.young hsyn)) fun hnil => hun ?_)
    rw [unread, hnil]
    simp

/-- STEP, stack thread between two callbacks. -/
theorem kept_stackNext {c c' : ChildSocket} (h : Kept c) (hidle : Idle c.toEntry)
    (hs : stackNext c = some c') : Kept c' := by
  have hcall : ∀ called skipped, skipped ≠ .clear → Kept (callback c called skipped) := by
    intro called skipped hskip
    rw [callback]
    split
    · refine ⟨h.fresh, fun _ => by simp, h.young, h.stays, h.events, fun hstake _ => .inl ?_⟩
      exact ⟨_, List.mem_singleton_self _, hstake.2.1⟩
    · exact ⟨h.fresh, h.found, h.young, h.stays, h.events, fun hstake => absurd hstake.1 hskip⟩
  rw [stackNext] at hs
  cases hpc : c.stack with
  | rest => simp [hpc] at hs
  | wakeupPending | redeliver =>
    simp only [hpc, Option.some.injEq] at hs
    subst hs
    exact hcall _ _ (by simp)
  | clear =>
    simp only [hpc, Option.some.injEq] at hs
    subst hs
    by_cases hparent : c.parent = true
    · rw [if_pos hparent]
      exact ⟨h.fresh, h.found, h.young, h.stays, h.events, fun hstake => by cases hstake.1⟩
    · rw [if_neg hparent]
      refine ⟨h.fresh, h.found, h.young, fun hp => absurd hp hparent, fun hun => .inr ?_,
        fun hstake => by cases hstake.1⟩
      -- only here can an event be lost; the callback has posted it
      rcases h.events hun with hrd | hposted
      · rcases h.heard ⟨hpc, hrd, hun⟩ (by simpa using hparent) with howes | ⟨ht, hpos | hhalf⟩
        · rw [hidle.2] at howes
          exact absurd howes (owes_nil _)
        · exact ⟨ht, hpos⟩
        · rw [hidle.1] at hhalf
          cases hhalf
      · exact hposted

/-- What a step of the stack thread inside `handle_wakeup` keeps of the announcement. -/
structure StackOutcome (e e' : Entry) : Prop where
  inTable : e'.inTable = e.inTable
  sem : e.sem .read ≤ e'.sem .read
  found : e.inTable = false → .unlockSem .read ∉ e'.todo
  heard : (LooksUp e → e.inTable) → Owes .read e.todo ∨ (e.inTable = true ∧ Posted e) →
    Owes .read e'.todo ∨ (e'.inTable = true ∧ Posted e')

theorem stackStep_outcome {e e' : Entry} (hfound : e.inTable = false → .unlockSem .read ∉ e.todo)
    (hs : stackStep e = some e') : StackOutcome e e' := by
  have htail : ∀ op ops, e.todo = op :: ops → e.inTable = false → .unlockSem .read ∉ ops := by
    intro op ops htodo ht hmem
    exact hfound ht (by rw [htodo]; exact .tail _ hmem)
  cases stackStep_move hs with
  | post c v hhalf =>
    have hsem : e.sem .read ≤ postUnless e.sem c v .read := by
      by_cases hc : c = .read
      · subst hc
        rw [postUnless_self]
        split <;> omega
      · rw [postUnless_of_ne (Ne.symm hc)]
    refine ⟨rfl, hsem, hfound, fun _ => Or.imp id fun ⟨ht, hposted⟩ => ⟨ht, .inl ?_⟩⟩
    rcases hposted with hpos | hzero
    · exact hpos.trans hsem
    · rw [hhalf, Option.some.injEq, Prod.mk.injEq] at hzero
      obtain ⟨rfl, rfl⟩ := hzero
      simp only [postUnless_self]
      exact Nat.le_add_left ..
  | lookup ev ops hhalf htodo =>
    refine ⟨rfl, le_rfl, ?_, ?_⟩
    · intro ht
      have hno := hfound ht
      rw [htodo] at hno
      simpa [handleWakeup, ht] using hno
    · intro hlook
      have ht := hlook (by rw [LooksUp, hhalf, htodo]; trivial)
      rw [htodo, owes_cons]
      refine Or.imp (fun howes => ?_) id
      rw [owes_append, ht, owes_handleWakeup]
      exact howes
  | unlockSem c ops hhalf htodo =>
    refine ⟨rfl, le_rfl, htail _ _ htodo, ?_⟩
    intro _
    rw [htodo, owes_cons]
    rintro ((hc | howes) | ⟨ht, hpos | hzero⟩)
    · -- `sem_getvalue` sees a token, or 0 and will post
      have hc : c = .read := hc
      subst hc
      refine .inr ⟨?_, ?_⟩
      · by_contra hno
        exact hfound (by simpa using hno) (by rw [htodo]; exact .head _)
      · rcases Nat.eq_zero_or_pos (e.sem .read) with hv | hv
        · exact .inr (by simp only [hv])
        · exact .inl hv
    · exact .inl howes
    · exact .inr ⟨ht, .inl hpos⟩
    · rw [hhalf] at hzero
      cases hzero
  | writePipe ops hhalf htodo hroom =>
    refine ⟨rfl, le_rfl, htail _ _ htodo, ?_⟩
    intro _
    rw [htodo, owes_cons]
    exact Or.imp (fun howes => howes.resolve_left id) id
  | incCount ops hhalf htodo =>
    refine ⟨rfl, le_rfl, htail _ _ htodo, ?_⟩
    intro _
    rw [htodo, owes_cons]
    exact Or.imp (fun howes => howes.resolve_left id) id

/-- STEP, accepting thread. -/
theorem kept_acceptStep {c c' : ChildSocket} {ok : Bool} (h : Kept c) (hheard : Heard c (.accept ok))
    (hs : acceptStep c ok = some c') : Kept c' := by
  rw [acceptStep] at hs
  cases hpc : c.accept with
  | sockAccept =>
    simp only [hpc] at hs
    split at hs <;> simp only [Option.some.injEq] at hs <;> subst hs
    · next hest =>
      refine ⟨fun _ => h.fresh (.inl hpc), h.found, ?_, fun hp => (by cases hp),
        h.events, fun hstake _ => .inl (hheard hstake hpc hest)⟩
      intro hsyn
      rw [hest] at hsyn
      cases hsyn
    · exact ⟨fun hno => by simp at hno, h.found, h.young, h.stays, h.events, h.heard⟩
  | pipe =>
    simp only [hpc, Option.some.injEq] at hs
    subst hs
    exact ⟨fun _ => h.fresh (.inr (.inl hpc)), h.found, h.young, h.stays, h.events, h.heard⟩
  | elemCreate =>
    have hout := h.fresh (.inr (.inr hpc))
    have hno : ∀ P, ¬ (c.inTable = true ∧ P) := by
      intro P hin
      rw [hout] at hin
      cases hin.1
    simp only [hpc] at hs
    split at hs <;> simp only [Option.some.injEq] at hs <;> subst hs
    · exact ⟨fun hno => by simp at hno, fun hin => (by cases hin), h.young, h.stays,
        fun hun => .inl ((h.events hun).resolve_right (hno _)),
        fun hstake hp => .inl ((h.heard hstake hp).resolve_right (hno _))⟩
    · exact ⟨fun hno => by simp at hno, h.found, h.young, h.stays, h.events, h.heard⟩
  | ret =>
    simp only [hpc, Option.some.injEq] at hs
    subst hs
    exact ⟨fun hno => by simp at hno, h.found, h.young, h.stays, h.events, h.heard⟩
  | done fd => simp [hpc] at hs

/-- STEP: a step in which the announcement is heard keeps it. -/
theorem kept_step {c c' : ChildSocket} {a : Act} (h : Kept c) (hheard : Heard c a)
    (hs : step c a = some c') : Kept c' := by
  cases a with
  | deliver first ack fin f =>
    simp only [step, Option.ite_none_right_eq_some, Option.some.injEq] at hs
    obtain ⟨⟨-, -, hhandled⟩, rfl⟩ := hs
    exact kept_deliver h (picoTcpInput_outcome hhandled.1 ack fin f)
  | loop =>
    simp only [step, Option.ite_none_right_eq_some, Option.some.injEq] at hs
    obtain ⟨-, rfl⟩ := hs
    exact ⟨h.fresh, h.found, h.young, h.stays, h.events, fun hstake => by cases hstake.1⟩
  | stack =>
    rw [step] at hs
    split at hs
    · next hidle => exact kept_stackNext h hidle hs
    · simp only [Option.map_eq_some_iff] at hs
      obtain ⟨e, he, rfl⟩ := hs
      have hout := stackStep_outcome h.found he
      refine ⟨fun hno => hout.inTable.trans (h.fresh hno),
        fun hno => hout.found (hout.inTable ▸ hno), h.young, h.stays, ?_, ?_⟩
      · intro hun
        exact (h.events hun).imp id fun ⟨ht, hpos⟩ => ⟨hout.inTable.trans ht, hpos.trans hout.sem⟩
      · intro hstake hp
        exact hout.heard (hheard hstake hp) (h.heard hstake hp)
  | accept ok => exact kept_acceptStep h hheard hs

theorem kept_tcpSynChild (seq : BitVec 32) : Kept (tcpSynChild seq) :=
  ⟨fun _ => rfl, fun _ => by simp [tcpSynChild, fdElemCreate], fun _ => rfl,
    fun _ hpool => absurd rfl hpool, fun hun => absurd rfl hun, fun hstake => by cases hstake.1⟩

/-- NO EVENT IS LOST in a hand-over in which every announcement is heard: bytes that are queued are
    in the semaphore or pending. -/
theorem handed_over {seq : BitVec 32} {as : List Act} {c : ChildSocket}
    (hm : Meets step Heard (tcpSynChild seq) as) (hr : run step (tcpSynChild seq) as = some c) :
    Delivered c := by
  have hend : Kept c :=
    run_keeps (fun _ _ _ hi ha hs => kept_step hi ha hs) (kept_tcpSynChild seq) hm hr
  exact fun hun => (hend.events hun).symm.imp And.right id

/-- The handshake of a peer that starts at 0, and the stack thread's round after it. -/
def handshake : List Act := .deliver true false false (.ofBytes 1 []) :: List.replicate 5 .stack

/-- Three bytes arrive when `taken` steps of the accepting thread are done; it then goes on. -/
def arriveAfter (taken : ℕ) : List Act :=
  handshake ++ List.replicate taken (.accept true) ++
    .deliver false false false (.ofBytes 1 [1, 2, 3]) :: List.replicate 5 .stack ++
    List.replicate (4 - taken) (.accept true)

theorem arriveAfter_runs : (run step (tcpSynChild 0) (arriveAfter 1)).isSome := by
  decide +kernel

/-- Bytes that arrive between `pico_socket_accept` and `fd_elem_create` are announced to nobody. -/
theorem event_lost : ¬ ∀ (as : List Act) (c : ChildSocket),
    run step (tcpSynChild 0) as = some c → c.accept = .done true → Idle c.toEntry →
    c.stack = .rest → Delivered c := by
  intro h
  have hpos := h (arriveAfter 1) _ (Option.some_get arriveAfter_runs).symm (by decide +kernel)
    (by decide +kernel) (by decide +kernel)
  exact absurd hpos (by decide +kernel)

/-- Three bytes arrive before `accept()`, and the stack's next round and a FIN after it. -/
def arriveBefore : List Act :=
  arriveAfter 0 ++ .loop :: List.replicate 7 .stack ++
    .deliver false false true (.ofBytes 4 []) :: List.replicate 2 .stack

theorem arriveBefore_runs : (run step (tcpSynChild 0) arriveBefore).isSome := by
  decide +kernel

/-- These bytes stay pending and are posted in that round. -/
theorem handed_over_arriveBefore : Delivered (Option.get _ arriveBefore_runs) :=
  handed_over (by decide +kernel) (Option.some_get arriveBefore_runs).symm

end FdPicotcp.HandOver
