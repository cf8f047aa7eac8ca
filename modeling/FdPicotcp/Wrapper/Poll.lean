import Mathlib.Data.Fintype.Option
import FdPicotcp.Wrapper.Wakeups

/-! Does the pipe tell `poll()` and `select()` the truth?

    Every `EV_RD` writes a character to the pipe and every `read()` takes all of them out before it
    reads the socket, whatever it then leaves behind; `EV_CONN` and `EV_CLOSE` write nothing. So the
    pipe mirrors the socket (`Mirror`) only along runs whose last read leaves bytes and token exactly
    when characters were written behind its back, and not across a FIN or a new connection that
    makes a descriptor ready by itself (`MirrorKeeps`). -/

namespace FdPicotcp.Poll
open Transition CInt UdpQueue Socket Elem Descriptor Drain Announce Wakeups

variable {n : ℕ}

/-- The operation leads to a write to the pipe. -/
def writes : Op → Prop
  | .lookup ev => ev &&& picoSockEvRd ≠ 0
  | .writePipe => True
  | _ => False

instance : DecidablePred writes
  | .lookup _ => inferInstanceAs (Decidable (_ ≠ _))
  | .writePipe => inferInstanceAs (Decidable True)
  | .unlockSem _ => inferInstanceAs (Decidable False)
  | .incCount => inferInstanceAs (Decidable False)

@[simp] theorem writes_lookup (ev : BitVec 16) :
    writes (.lookup ev) ↔ ev &&& picoSockEvRd ≠ 0 := .rfl

@[simp] theorem writes_writePipe : writes .writePipe := trivial

@[simp] theorem writes_unlockSem (c : Sem) : ¬ writes (.unlockSem c) := id

@[simp] theorem writes_incCount : ¬ writes .incCount := id

/-- Some operation still to do writes to the pipe. -/
def WillWrite (ops : List Op) : Prop := ∃ op ∈ ops, writes op

instance (ops : List Op) : Decidable (WillWrite ops) :=
  inferInstanceAs (Decidable (∃ op ∈ ops, writes op))

@[simp] theorem willWrite_nil : ¬ WillWrite [] := by simp [WillWrite]

@[simp] theorem willWrite_cons (op : Op) (ops : List Op) :
    WillWrite (op :: ops) ↔ writes op ∨ WillWrite ops := by simp [WillWrite]

@[simp] theorem willWrite_append (ops ops' : List Op) :
    WillWrite (ops ++ ops') ↔ WillWrite ops ∨ WillWrite ops' := by
  simp [WillWrite, or_and_right, exists_or]

/-- Characters are in the pipe or will be written by the stack thread. -/
def Bytes (d : Desc n) : Prop := 0 < d.pipe ∨ WillWrite d.todo

instance (d : Desc n) : Decidable (Bytes d) := inferInstanceAs (Decidable (_ ∨ _))

/-- Called and before the `pico_socket_read` or `pico_socket_accept`. -/
def Busy : Sem → ThreadPc → Prop
  | .read, .readWait _ _ | .read, .drainTest _ _ | .read, .drainRead _ _ | .read, .drainCount _ _ _
  | .read, .sockRead _ _ => True
  | .accept, .acceptWait | .accept, .sockAccept => True
  | _, _ => False

instance (c : Sem) : DecidablePred (Busy c) := fun pc =>
  match c, pc with
  | .read, .readWait _ _ | .read, .drainTest _ _ | .read, .drainRead _ _ | .read, .drainCount _ _ _
  | .read, .sockRead _ _ | .accept, .acceptWait | .accept, .sockAccept => isTrue trivial
  | .read, .away | .read, .readUnlock _ | .read, .readPost _ _ | .read, .readDone _
  | .read, .acceptWait | .read, .sockAccept | .read, .acceptDone _ | .accept, .away
  | .accept, .readWait _ _ | .accept, .drainTest _ _ | .accept, .drainRead _ _
  | .accept, .drainCount _ _ _ | .accept, .sockRead _ _ | .accept, .readUnlock _
  | .accept, .readPost _ _ | .accept, .readDone _
  | .accept, .acceptDone _ => isFalse id

/-- What a read finds: data or end-of-file. -/
def Finds (s : PicoSocket) : Prop := hasData s ∨ peerClosed s = true

instance (s : PicoSocket) : Decidable (Finds s) := inferInstanceAs (Decidable (_ ∨ _))

/-- A listening descriptor is ready when `accept()` returns a connection without waiting; any other
    when `read()` waits neither for the token nor for characters to drain and finds something. -/
def ReadyNow (d : Desc n) : Prop :=
  if d.socket.state = .listen then 1 ≤ d.sem .accept ∧ hasChild d.socket
  else 1 ≤ d.sem .read ∧ d.fdWriteCount ≤ d.pipe ∧ Finds d.socket

instance (d : Desc n) : Decidable (ReadyNow d) := by
  unfold ReadyNow; infer_instance

/-- Ready means what it says: a `read()` then returns without waiting. -/
theorem ReadyNow.read_returns {d : Desc n} (h : ReadyNow d) (hl : d.socket.state ≠ .listen)
    (ht : d.inTable) {p : Fin n} (haway : d.thread p = .away) (buf : Buffer) (len : ℕ) : ∃ m d',
      run step d (.read p buf len :: List.replicate m (.thread p)) = some d' ∧
        d'.thread p = .readDone (picoSocketRead d.socket buf (toInt32 len)).2.1 := by
  rw [ReadyNow, if_neg hl] at h
  exact Drain.read_returns ht haway h.1 h.2.1 buf len

/-- The mirror law: while nobody is busy on it, the pipe has characters exactly when there is
    something to find and a token for it. -/
structure Mirror (d : Desc n) : Prop where
  wf : Wf d
  inTable : d.inTable
  stream : d.socket.state = .listen → d.socket.proto = .tcp
  unwritten : d.socket.state = .listen → ¬ Bytes d
  accept : d.socket.state = .listen → (∀ p, ¬ Busy .accept (d.thread p)) → hasChild d.socket →
    ¬ Token.Credit (abs .accept d)
  read : d.socket.state ≠ .listen → (∀ p, ¬ Busy .read (d.thread p)) →
    (Finds d.socket ∧ Token.Credit (abs .read d) ↔ Bytes d)

/-- Arrivals, establishments, peer closes, reads and accepts. -/
def PollAct : Act n → Prop
  | .event (.del _) | .close _ => False
  | _ => True

instance : DecidablePred (PollAct (n := n))
  | .event (.del _) | .close _ => isFalse id
  | .event (.segment ..) | .event (.fin _) | .event (.segmentFin ..) | .event (.datagram _)
  | .event (.syn _) | .event (.firstAck _) | .event (.synAck _) | .stack | .read .. | .accept _
  | .thread _ => isTrue trivial

/-- The steps that keep the mirror. The last busy read must leave data and a token exactly if the
    pipe has characters, the last busy accept must not leave a connection and a token; a FIN must
    find a token exactly if the pipe has characters; a connection must find a busy accept. -/
def MirrorKeeps (d : Desc n) : Act n → Prop
  | .thread p =>
    match d.thread p with
    | .sockRead buf len => d.socket.state ≠ .listen → (∀ q, q ≠ p → ¬ Busy .read (d.thread q)) →
      ((readLeaves d.socket buf len ∨ peerClosed d.socket = true) ∧
        (readFills d.socket buf len ∨ Token.CreditBut (abs .read d) (some p)) ↔ Bytes d)
    | .sockAccept => d.socket.state = .listen → (∀ q, q ≠ p → ¬ Busy .accept (d.thread q)) →
      acceptLeaves d.socket → ¬ Token.CreditBut (abs .accept d) (some p)
    | _ => True
  | .event (.fin seq) => finExpected d.socket (.fin seq) → (∀ p, ¬ Busy .read (d.thread p)) →
    (Token.Credit (abs .read d) ↔ Bytes d)
  | .event (.firstAck _) => ∃ p, Busy .accept (d.thread p)
  | _ => True

instance (d : Desc n) : DecidablePred (MirrorKeeps d)
  | .thread p => by
    dsimp only [MirrorKeeps]
    exact match d.thread p with
      | .sockRead _ _ | .sockAccept => inferInstance
      | .away | .readWait _ _ | .drainTest _ _ | .drainRead _ _ | .drainCount _ _ _ | .readUnlock _
      | .readPost _ _ | .readDone _ | .acceptWait | .acceptDone _ => inferInstance
  | .event (.fin _) | .event (.firstAck _) => by
    dsimp only [MirrorKeeps]
    infer_instance
  | .event (.segment ..) | .event (.segmentFin ..) | .event (.datagram _) | .event (.syn _)
  | .event (.synAck _) | .event (.del _) | .stack | .read .. | .accept _ | .close _ => isTrue trivial

/-- `handle_wakeup` writes to the pipe when it is called with `EV_RD`. -/
theorem willWrite_handleWakeup (ev : BitVec 16) :
    WillWrite (handleWakeup true ev) ↔ ev &&& picoSockEvRd ≠ 0 := by
  rw [handleWakeup, if_pos rfl, willWrite_append]
  by_cases hc : ev &&& picoSockEvConn ≠ 0 <;> by_cases hr : ev &&& picoSockEvRd ≠ 0
  all_goals simp only [hc, hr, if_true, if_false, willWrite_cons, willWrite_nil, writes_unlockSem,
    writes_writePipe, or_false, or_true, true_or, not_false_eq_true, ne_eq]

theorem willWrite_lookup (evs : List (BitVec 16)) :
    WillWrite (evs.map .lookup) ↔ announces picoSockEvRd evs := by
  simp only [WillWrite, List.mem_map, exists_exists_and_eq_and, writes_lookup, announces]

/-- A step of the stack thread only moves characters it had announced into the pipe. -/
theorem bytes_stackStep {e e' : Entry} (ht : e.inTable) (hs : stackStep e = some e') :
    (0 < e'.pipe ∨ WillWrite e'.todo) ↔ (0 < e.pipe ∨ WillWrite e.todo) := by
  cases stackStep_move hs with
  | post => exact .rfl
  | lookup ev ops hhalf htodo =>
    rw [htodo, willWrite_cons, writes_lookup]
    simp only [ht, willWrite_append, willWrite_handleWakeup]
  | unlockSem c ops hhalf htodo =>
    rw [htodo, willWrite_cons]
    simp only [writes_unlockSem, false_or]
  | writePipe ops hhalf htodo hroom =>
    rw [htodo, willWrite_cons]
    simp only [Nat.succ_pos, true_or, writes_writePipe, or_true]
  | incCount ops hhalf htodo =>
    rw [htodo, willWrite_cons]
    simp only [writes_incCount, false_or]

/-- Only a read of the pipe takes characters out, and a thread's step moves only that thread. -/
theorem threadStep_pipe {d d' : Desc n} {p : Fin n} (hs : threadStep d p = some d') :
    d'.pipe ≤ d.pipe ∧ (¬ Busy .read (d.thread p) → d'.pipe = d.pipe) ∧
      ∀ q, q ≠ p → d'.thread q = d.thread q := by
  obtain ⟨pc, hpc, hm⟩ := threadStep_move hs
  rw [hpc]
  cases hm with
  | drainRead buf len hpos =>
    exact ⟨Nat.sub_le .., fun h => absurd trivial h, fun q hq => goto_thread_of_ne hq _⟩
  | _ => exact ⟨le_rfl, fun _ => rfl, fun q hq => goto_thread_of_ne hq _⟩

/-- A thread that is not busy takes nothing from the channel. -/
theorem threadLabel_quiet {c : Sem} {d : Desc n} {p : Fin n} (h : ¬ Busy c (d.thread p)) :
    ∀ l ∈ threadLabel c d p, l.Quiet := by
  intro l hl
  cases c <;> cases hpc : d.thread p <;> rw [hpc] at h <;>
    simp only [threadLabel, hpc, Option.mem_def, Option.some.injEq, reduceCtorEq] at hl <;>
    first | exact absurd trivial h | (subst hl; trivial)

/-- The last step of a busy thread. -/
def Takes : Sem → ThreadPc → Prop
  | .read, .sockRead _ _ => True
  | .accept, .sockAccept => True
  | _, _ => False

/-- A busy thread stays busy until its `pico_socket_read` or `pico_socket_accept`. -/
theorem busy_threadStep {c : Sem} {d d' : Desc n} {p : Fin n} (hb : Busy c (d.thread p))
    (hs : threadStep d p = some d') : Busy c (d'.thread p) ∨ Takes c (d.thread p) := by
  obtain ⟨pc, hpc, hm⟩ := threadStep_move hs
  rw [hpc] at hb ⊢
  cases hm with
  | sockRead | sockAccept => cases c <;> first | exact absurd hb id | exact .inr trivial
  | drainTest buf len =>
    rw [goto_thread_self]
    cases c with
    | read => split <;> exact .inl trivial
    | accept => exact absurd hb id
  | _ =>
    cases c <;> first
      | exact absurd hb id
      | (left; simp only [goto_thread_self]; trivial)

/-- STEP, events: what a frame or a timer does to the mirror. -/
theorem mirror_event {d : Desc n} {e : Event} {s : PicoSocket} {evs : List (BitVec 16)}
    (h : Mirror d) (ha : PollAct (n := n) (.event e)) (hk : MirrorKeeps d (.event e))
    (hidle : Idle d.toEntry) (he : event d.socket e = some (s, evs)) :
    Mirror { d with socket := s, todo := evs.map .lookup } := by
  have hout := event_spec h.wf.sound he
  have hdel : ∀ ev, e ≠ .del ev := by
    intro ev hev
    rw [hev] at ha
    exact ha
  have hstay := event_stays h.wf.sound he hdel
  have hbytes : Bytes { d with socket := s, todo := evs.map .lookup } ↔
      Bytes d ∨ announces picoSockEvRd evs := by
    rw [Bytes, Bytes, willWrite_lookup, hidle.2]
    simp only [willWrite_nil, or_false]
  have hread := credit_event .read h.wf hidle he
  have haccept := credit_event .accept h.wf hidle he
  refine ⟨⟨hout.sound, h.wf.range⟩, h.inTable, ?_, ?_, ?_, ?_⟩
  · rw [hstay.listen, hout.proto]
    exact h.stream
  · rw [hstay.listen, hbytes]
    exact fun hl => not_or_intro (h.unwritten hl) (hstay.noData hl (h.stream hl))
  · rw [hstay.listen, haccept]
    intro hl hbusy hchild
    by_cases hconn : announces picoSockEvConn evs
    · -- the ACK that completed it found a thread in accept()
      obtain ⟨remote, rfl⟩ := hstay.conn hl hconn
      obtain ⟨p, hp⟩ := hk
      exact absurd hp (hbusy p)
    · rw [hout.child hconn] at hchild
      exact not_or_intro hconn (h.accept hl hbusy hchild)
  · rw [ne_eq, hstay.listen, hread, hbytes]
    intro hl hbusy
    by_cases hrd : announces picoSockEvRd evs
    · exact iff_of_true ⟨.inl (hout.fresh hrd), .inl hrd⟩ (.inr hrd)
    · rw [or_iff_right (show ¬ announces (eventOf .read) evs from hrd), or_iff_left hrd, Finds,
        hstay.peerClosed hrd, hout.data hrd]
      by_cases hfin : finExpected d.socket e
      · rw [and_iff_right (.inr (.inl hfin))]
        cases e with
        | fin seq => exact hk hfin hbusy
        | _ => exact absurd hfin id
      · rw [or_iff_right hfin]
        exact h.read hl hbusy

/-- A step of one thread keeps the mirror if, for each semaphore, the thread is busy afterwards, or
    was not and changed neither readiness nor credit, or leaves what the law asks for. -/
theorem mirror_of_thread {d d' : Desc n} {p : Fin n} (h : Mirror d) (hw : Wf d')
    (hkept : d'.half = d.half ∧ d'.todo = d.todo ∧ d'.inTable = d.inTable ∧
      SameKind d.socket d'.socket)
    (hpipe : d'.pipe ≤ d.pipe ∧ (¬ Busy .read (d.thread p) → d'.pipe = d.pipe) ∧
      ∀ q, q ≠ p → d'.thread q = d.thread q)
    (hquiet : ∀ c, ¬ Busy c (d.thread p) → (Ready c d'.socket ↔ Ready c d.socket) ∧
      (Token.Credit (abs c d') ↔ Token.Credit (abs c d)))
    (haccept : Busy .accept (d.thread p) → Busy .accept (d'.thread p) ∨
      (d.socket.state = .listen → (∀ q, q ≠ p → ¬ Busy .accept (d.thread q)) →
        hasChild d'.socket → ¬ Token.Credit (abs .accept d')))
    (hread : Busy .read (d.thread p) → Busy .read (d'.thread p) ∨
      (d.socket.state ≠ .listen → (∀ q, q ≠ p → ¬ Busy .read (d.thread q)) →
        (Finds d'.socket ∧ Token.Credit (abs .read d') ↔ Bytes d'))) : Mirror d' := by
  obtain ⟨-, htodo, hin, hkind⟩ := hkept
  obtain ⟨hle, heq, hother⟩ := hpipe
  have hothers : ∀ {c}, (∀ q, ¬ Busy c (d'.thread q)) → ∀ q, q ≠ p → ¬ Busy c (d.thread q) :=
    fun hb q hq => hother q hq ▸ hb q
  have hnobody : ∀ {c}, (∀ q, ¬ Busy c (d'.thread q)) → ¬ Busy c (d.thread p) →
      ∀ q, ¬ Busy c (d.thread q) := fun hb hp q => by
    by_cases hq : q = p
    · exact hq ▸ hp
    · exact hothers hb q hq
  refine ⟨hw, hin.trans h.inTable, ?_, ?_, ?_, ?_⟩
  · rw [hkind.listen, hkind.proto]
    exact h.stream
  · rw [hkind.listen, Bytes, htodo]
    intro hl hbytes
    exact h.unwritten hl (hbytes.imp (fun hpos => hpos.trans_le hle) id)
  · rw [hkind.listen]
    intro hl hbusy hchild
    by_cases hb : Busy .accept (d.thread p)
    · rcases haccept hb with hb' | hlaw
      · exact absurd hb' (hbusy p)
      · exact hlaw hl (hothers hbusy) hchild
    · obtain ⟨hready, hcredit⟩ := hquiet .accept hb
      rw [hcredit]
      exact h.accept hl (hnobody hbusy hb) (hready.mp hchild)
  · rw [ne_eq, hkind.listen]
    intro hl hbusy
    by_cases hb : Busy .read (d.thread p)
    · rcases hread hb with hb' | hlaw
      · exact absurd hb' (hbusy p)
      · exact hlaw hl (hothers hbusy)
    · obtain ⟨hready, hcredit⟩ := hquiet .read hb
      have hdata : hasData d'.socket ↔ hasData d.socket := hready
      rw [Finds, hdata, hkind.peerClosed, hcredit, Bytes, heq hb, htodo]
      exact h.read hl (hnobody hbusy hb)

/-- What a `pico_socket_read` leaves to find, and whether a token stays. -/
theorem sockRead_leaves {d d' : Desc n} {p : Fin n} {buf : Buffer} {len : ℤ} (hw : Wf d)
    (hpc : d.thread p = .sockRead buf len) (hs : threadStep d p = some d') :
    (Finds d'.socket ↔ readLeaves d.socket buf len ∨ peerClosed d.socket = true) ∧
      (Token.Credit (abs .read d') ↔
        readFills d.socket buf len ∨ Token.CreditBut (abs .read d) (some p)) ∧
      (Bytes d' ↔ Bytes d) := by
  have hm := threadStep_label .read hw hs
  have hr := hw.range p
  rw [hpc] at hr
  simp only [threadLabel, hpc] at hm
  have hcredit := Token.credit_take hm
  rw [decide_eq_true_iff] at hcredit
  refine ⟨?_, hcredit, ?_⟩
  · obtain ⟨-, -, -, hkind⟩ := threadStep_kept hw hs
    have hleaves : hasData (picoSocketRead d.socket buf len).1 ↔ _ :=
      (picoSocketRead_spec hw.sound hr.1 hr.2).leaves
    rw [Finds, hkind.peerClosed]
    simp only [threadStep, hpc, Option.some.injEq] at hs
    subst hs
    rw [← hleaves]
  · simp only [threadStep, hpc, Option.some.injEq] at hs
    subst hs
    exact .rfl

/-- What a `pico_socket_accept` leaves to accept, and whether a token stays. -/
theorem sockAccept_leaves {d d' : Desc n} {p : Fin n} (hw : Wf d)
    (hpc : d.thread p = .sockAccept) (hs : threadStep d p = some d') :
    (hasChild d'.socket ↔ acceptLeaves d.socket) ∧
      (Token.Credit (abs .accept d') ↔ Token.CreditBut (abs .accept d) (some p)) := by
  have hm := threadStep_label .accept hw hs
  simp only [threadLabel, hpc] at hm
  have hcredit := Token.credit_take hm
  rw [or_iff_right Bool.false_ne_true] at hcredit
  refine ⟨?_, hcredit⟩
  simp only [threadStep, hpc, Option.some.injEq] at hs
  subst hs
  exact (picoSocketAccept_spec hw.sound).2.2.1

/-- STEP, threads. -/
theorem mirror_threadStep {d d' : Desc n} {p : Fin n} (h : Mirror d)
    (hk : MirrorKeeps d (.thread p)) (hs : threadStep d p = some d') : Mirror d' := by
  rw [MirrorKeeps] at hk
  refine mirror_of_thread h (wf_threadStep h.wf hs) (threadStep_kept h.wf hs) (threadStep_pipe hs)
    (fun c hb => quiet_step (threadStep_label c h.wf hs) (threadLabel_quiet hb)) ?_ ?_
  · intro hb
    refine (busy_threadStep hb hs).imp id ?_
    intro htakes
    cases hpc : d.thread p <;> rw [hpc] at htakes <;> try exact absurd htakes id
    intro hl hothers
    rw [hpc] at hk
    obtain ⟨hleaves, hcredit⟩ := sockAccept_leaves h.wf hpc hs
    rw [hleaves, hcredit]
    exact hk hl hothers
  · intro hb
    refine (busy_threadStep hb hs).imp id ?_
    intro htakes
    cases hpc : d.thread p <;> rw [hpc] at htakes <;> try exact absurd htakes id
    intro hl hothers
    rw [hpc] at hk
    obtain ⟨hfinds, hcredit, hbytes⟩ := sockRead_leaves h.wf hpc hs
    rw [hfinds, hcredit, hbytes]
    exact hk hl hothers

/-- STEP, calls: a thread enters `read()` or `accept()`. -/
theorem mirror_call {d : Desc n} {p : Fin n} {k : ThreadPc} (h : Mirror d)
    (haway : d.thread p = .away) (hrange : k.InRange)
    (hlabel : ∀ c, abs c (d.goto p k) = abs c d) : Mirror (d.goto p k) := by
  have hno : ∀ c, ¬ Busy c (d.thread p) := by
    intro c
    rw [haway]
    cases c <;> exact id
  refine mirror_of_thread h (h.wf.goto p hrange) ⟨rfl, rfl, rfl, .refl _⟩
    ⟨le_rfl, fun _ => rfl, fun q hq => goto_thread_of_ne hq _⟩ (fun c _ => ⟨.rfl, by rw [hlabel]⟩)
    (fun hb => absurd hb (hno _)) fun hb => absurd hb (hno _)

/-- STEP: every step that meets `MirrorKeeps` keeps the mirror. -/
theorem mirror_step {d d' : Desc n} {a : Act n} (h : Mirror d) (ha : PollAct a)
    (hk : MirrorKeeps d a) (hs : step d a = some d') : Mirror d' := by
  have hopen : ∀ b, a ≠ .close b := by
    intro b hb
    rw [hb] at ha
    exact ha
  have hm := fun c => step_label c h.wf h.inTable hs ((inTable_step h.wf hopen hs).trans h.inTable)
  cases step_move hs with
  | event e s evs hidle he => exact mirror_event h ha hk hidle he
  | stack e he =>
    have hquiet := fun c => quiet_step (hm c) (stackLabel_quiet c d)
    have hbytes : Bytes { d with toEntry := e } ↔ Bytes d := bytes_stackStep h.inTable he
    refine ⟨wf_step h.wf hs, (inTable_step h.wf hopen hs).trans h.inTable, h.stream, ?_, ?_, ?_⟩
    · rw [hbytes]
      exact h.unwritten
    · rw [(hquiet .accept).2]
      exact h.accept
    · rw [(hquiet .read).2, hbytes]
      exact h.read
  | read p buf len hin haway => exact mirror_call h haway (toInt32_range len) hm
  | accept p hin haway => exact mirror_call h haway trivial hm
  | thread p d' hs => exact mirror_threadStep h hk hs
  | close b => exact absurd ha id

/-- A registered descriptor has no token and an empty pipe, whatever its socket holds. -/
theorem mirror_register {s : PicoSocket} (hs : Sound s) (hl : s.state = .listen → s.proto = .tcp) :
    Mirror (register s n) := by
  have hcredit : ∀ c, ¬ Token.Credit (abs c (register s n)) := by
    rintro c (hv | ⟨q, hq⟩)
    · exact absurd hv (Nat.lt_irrefl 0)
    · exact not_owing (d := register s n) ⟨rfl, rfl⟩ (fun _ => by cases c <;> rfl) q hq
  have hbytes : ¬ Bytes (register s n) := by
    rintro (hpos | hwill)
    · exact absurd hpos (Nat.lt_irrefl 0)
    · exact absurd hwill willWrite_nil
  exact ⟨wf_register hs, rfl, hl, fun _ => hbytes, fun _ _ _ => hcredit .accept,
    fun _ _ => iff_of_false (fun h => hcredit .read h.2) hbytes⟩

/-- While nothing is in progress, credit is the counter and `Bytes` the pipe. -/
theorem Mirror.ready {d : Desc n} (h : Mirror d) (hidle : Idle d.toEntry)
    (haway : ∀ p, d.thread p = .away) (hcount : d.fdWriteCount = d.pipe) :
    0 < d.pipe ↔ ReadyNow d := by
  have hno : ∀ c p, ¬ Busy c (d.thread p) := by
    intro c p
    rw [haway]
    cases c <;> exact id
  have hcredit : ∀ c, Token.Credit (abs c d) ↔ 1 ≤ d.sem c := by
    intro c
    have howing := not_owing (c := c) hidle fun p => by rw [haway]; cases c <;> rfl
    exact ⟨fun hc => hc.resolve_right fun ⟨q, hq⟩ => howing q hq, .inl⟩
  have hbytes : Bytes d ↔ 0 < d.pipe := by
    rw [Bytes, hidle.2, or_iff_left willWrite_nil]
  rw [ReadyNow, ← hbytes]
  split
  · next hl =>
    refine iff_of_false (h.unwritten hl) fun ⟨hsem, hchild⟩ => ?_
    exact h.accept hl (hno _) hchild ((hcredit _).mpr hsem)
  · next hl =>
    rw [← h.read hl (hno _), hcredit, and_comm, and_iff_right hcount.le]

/-- POLL TELLS THE TRUTH in a run whose steps all keep the mirror: whenever nothing is in progress
    the pipe has characters exactly when a `read()`, or on a listener an `accept()`, is ready. -/
theorem poll_tells_truth {s : PicoSocket} (hs : Sound s)
    (hl : s.state = .listen → s.proto = .tcp) {as : List (Act n)}
    (hm : Meets step (fun d a => PollAct a ∧ MirrorKeeps d a) (register s n) as) {d : Desc n}
    (hr : run step (register s n) as = some d) (hidle : Idle d.toEntry)
    (haway : ∀ p, d.thread p = .away) : 0 < d.pipe ↔ ReadyNow d := by
  have hend : Mirror d :=
    run_keeps (fun _ _ _ hi ha hs => mirror_step hi ha.1 ha.2 hs) (mirror_register hs hl) hm hr
  have hr : run step (registerOwed s [] n) as = some d := hr
  exact hend.ready hidle haway (count_eq_pipe hr hidle fun p => by rw [haway]; rfl)

/-- Three bytes arrive and are announced, a thread reads `len`, and one more byte is announced. -/
def readAgain (len : ℕ) : List (Act 1) :=
  .event (.segment (.ofBytes 0 [1, 2, 3]) 0) :: List.replicate 5 .stack ++
    .read 0 .valid len :: List.replicate 7 (.thread 0) ++
    .event (.segment (.ofBytes 3 [4]) 0) :: List.replicate 5 .stack

theorem readAgain_runs :
    (run step (register (connectedSocket 0) 1) (readAgain 5)).isSome := by decide +kernel

/-- A read that finds less than it asks for leaves neither bytes nor token, and the next byte makes
    the descriptor ready and readable. -/
theorem poll_tells_truth_readAgain :
    0 < (Option.get _ readAgain_runs).pipe ↔ ReadyNow (Option.get _ readAgain_runs) :=
  poll_tells_truth (sound_connected 0) (by decide) (by decide +kernel)
    (Option.some_get readAgain_runs).symm (by decide +kernel) (by decide +kernel)

/-- After a read of two of the three bytes the third can be read without waiting, and the pipe is
    empty. -/
theorem poll_misses_rest : ¬ ∀ (as : List (Act 1)) (d : Desc 1), (∀ a ∈ as, PollAct a) →
    run step (register (connectedSocket 0) 1) as = some d → Idle d.toEntry →
    (∀ p, d.thread p = .away) → (0 < d.pipe ↔ ReadyNow d) := by
  intro h
  have hiff := h (readAfterThree .valid 2 9) _ (by decide) (Option.some_get partialRead_runs).symm
    (by decide +kernel) (by decide +kernel)
  exact absurd (hiff.mpr (by decide +kernel)) (by decide +kernel)

end FdPicotcp.Poll
