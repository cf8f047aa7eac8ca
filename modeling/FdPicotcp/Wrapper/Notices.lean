import FdPicotcp.Wrapper.Drain
import FdPicotcp.Wrapper.HandOver

/-! How many characters can be in a descriptor's pipe (`fd_picotcp.c`, `modules/pico_socket_tcp.c`)?

    A segment is announced twice, at the end of `pico_tcp_input` and in `socket_tcp_do_deliver`, a
    datagram once, and every announcement is a character in the pipe. A reader empties the pipe
    before it takes from the queue. So what is in the pipe was announced since, and the queue's size
    bounds it twice: what arrives before the queue is emptied, and what arrives after (`total`). -/

namespace FdPicotcp.Notices
open Transition CInt TcpQueue UdpQueue Socket Elem Descriptor
open HandOver (StackPc)

/-- A descriptor with what its socket's callbacks depend on. -/
structure World (n : ℕ) extends Desc n where
  evPending : BitVec 16
  stack : StackPc

/-- What the stack thread does to a socket besides its data. -/
def IsControl : Event → Prop
  | .syn _ | .firstAck _ | .synAck _ | .del _ => True
  | _ => False

instance : DecidablePred IsControl
  | .syn _ | .firstAck _ | .synAck _ | .del _ => isTrue trivial
  | .segment .. | .fin _ | .segmentFin .. | .datagram _ => isFalse id

/-- A frame, a turn of the stack, a thread, or the end. -/
inductive Act (n : ℕ) where
  /-- `socket_tcp_do_deliver` of a frame: whether it acknowledges data, whether it carries a FIN;
      `f` is its sequence number and its data -/
  | deliver (ack fin : Bool) (f : TcpInputSegment) (sackOk : Bool)
  | control (e : Event) (frame : Bool)
  | datagram (p : PicoFrame)
  /-- the socket's turn in `pico_sockets_loop_tcp` -/
  | loop
  | stack
  | read (p : Fin n) (buf : Buffer) (len : ℕ)
  | accept (p : Fin n)
  | thread (p : Fin n)
  | close (outEmpty : Bool)
  deriving DecidableEq

variable {n : ℕ}

/-- `tcp_data_in_high_segment` -/
def tcpDataInHighSegment (w : World n) (f : TcpInputSegment) (sackOk : Bool) : World n :=
  if sackOk then
    let (ret, q) := picoEnqueueSegment w.socket.tcp.tcpqIn f
    if ret ≤ 0 then w else { w with socket.tcp.tcpqIn := q }
  else w

/-- `tcp_data_in`, which makes `EV_RD` pending. -/
def tcpDataIn (w : World n) (f : TcpInputSegment) (sackOk : Bool) : World n :=
  if picoSeqCompare f.seq w.socket.tcp.rcvNxt ≤ 0 then
    match tcpDataInExpected w.socket.tcp f with
    | (t, true) => { w with socket.tcp := t, evPending := w.evPending ||| picoSockEvRd }
    | (_, false) => w
  else tcpDataInHighSegment w f sackOk

/-- `tcp_closewait`, with the data of the FIN before it. -/
def tcpClosewait (w : World n) (f : TcpInputSegment) (sackOk : Bool) : World n :=
  let w := if 0 < f.payloadLen then tcpDataIn w f sackOk else w
  let (s, close) := tcpAttemptClosewait w.socket f.seq
  { w with socket := s, todo := if close then [.lookup picoSockEvClose] else [] }

/-- `tcp_action_by_flags` in `ESTABLISHED` and in `CLOSE_WAIT`, which answers data with a reset. -/
def tcpActionByFlags (w : World n) (ack fin : Bool) (f : TcpInputSegment) (sackOk : Bool) :
    World n :=
  let w := if ack then { w with evPending := w.evPending ||| picoSockEvWr } else w
  let w := if 0 < f.payloadLen ∧ w.socket.state = .established then tcpDataIn w f sackOk else w
  if fin then tcpClosewait w f sackOk else w

/-- Call back with the pending events, if there are any. -/
def callback (w : World n) (called skipped : StackPc) : World n :=
  if w.evPending ≠ 0 then { w with todo := [.lookup w.evPending], stack := called }
  else { w with stack := skipped }

/-- The stack thread between two callbacks; the socket of a descriptor has no parent. -/
def stackNext (w : World n) : Option (World n) :=
  match w.stack with
  | .rest => none
  | .wakeupPending => some (callback w .redeliver .redeliver)
  | .redeliver => some (callback w .clear .rest)
  | .clear => some { w with evPending := 0, stack := .rest }

/-- `ev_pending` after a `pico_socket_read` that gets to `tcp_read_finish`. -/
def tcpReadFinish (s : PicoSocket) (buf : Buffer) (len : ℤ) (ev : BitVec 16) : BitVec 16 :=
  if s.proto = .tcp ∧ buf ≠ .null ∧ s.inTree ∧ s.bound ∧
      ¬ (s.shutRemote ∧ s.tcp.tcpqIn.frames = 0) then
    let t := (picoTcpRead s.tcp (toUint32 len)).1
    let ev := if t.tcpqIn.size = 0 then ev &&& ~~~picoSockEvRd else ev
    if t.remoteClosed then ev ||| picoSockEvClose else ev
  else ev

/-- The pending events after a read. -/
def readPending (w : World n) (p : Fin n) : BitVec 16 :=
  match w.thread p with
  | .sockRead buf len => tcpReadFinish w.socket buf len w.evPending
  | _ => w.evPending

/-- `EV_CONN` is the only callback of a control event that `handle_wakeup` does anything for. -/
def control (w : World n) (e : Event) (frame : Bool) : Option (World n) :=
  (event w.socket e).map fun (s, evs) => { w with
    socket := s
    todo := evs.map .lookup
    evPending := match e with
      | .synAck _ => w.evPending ||| picoSockEvWr
      | _ => w.evPending
    stack := if frame then .wakeupPending else .rest }

/-- A UDP frame's buffer holds its header and its data. -/
def Framed (p : PicoFrame) : Prop := p.transport.length + 8 ≤ p.bufferLen ∧ p.bufferLen < 2 ^ 31

instance : DecidablePred Framed := fun _ => inferInstanceAs (Decidable (_ ∧ _))

/-- The stack thread takes a frame or a timer between two rounds. -/
def Resting (w : World n) : Prop := Idle w.toEntry ∧ w.stack = .rest

instance (w : World n) : Decidable (Resting w) := inferInstanceAs (Decidable (_ ∧ _))

/-- Frames of a connection that the application has not closed: then there is no pipe any more. -/
def Connected (s : PicoSocket) : Prop :=
  s.proto = .tcp ∧ s.inTree ∧ (s.state = .established ∨ s.state = .closeWait)

instance (s : PicoSocket) : Decidable (Connected s) := inferInstanceAs (Decidable (_ ∧ _ ∧ _))

/-- The descriptor after a step. -/
def step (w : World n) : Act n → Option (World n)
  | .deliver ack fin f sackOk =>
    if Resting w ∧ Connected w.socket then
      some { tcpActionByFlags w ack fin f sackOk with stack := .wakeupPending }
    else none
  | .control e frame => if Resting w ∧ IsControl e then control w e frame else none
  | .datagram p =>
    if Resting w ∧ Framed p then
      (event w.socket (.datagram p)).map fun (s, evs) =>
        { w with socket := s, todo := evs.map .lookup }
    else none
  | .loop =>
    if Resting w ∧ w.socket.proto = .tcp ∧ w.socket.inTree then
      some { w with stack := .redeliver }
    else none
  | .stack =>
    if Idle w.toEntry then stackNext w
    else (stackStep w.toEntry).map fun e => { w with toEntry := e }
  | .read p buf len =>
    (Descriptor.step w.toDesc (.read p buf len)).map fun d => { w with toDesc := d }
  | .accept p => (Descriptor.step w.toDesc (.accept p)).map fun d => { w with toDesc := d }
  | .thread p =>
    (threadStep w.toDesc p).map fun d => { w with toDesc := d, evPending := readPending w p }
  | .close outEmpty =>
    (Descriptor.step w.toDesc (.close outEmpty)).map fun d => { w with toDesc := d }

/-- The thread is in `fd_pico_socket_read`. -/
def Reading : ThreadPc → Prop
  | .away | .acceptWait | .sockAccept | .acceptDone _ => False
  | _ => True

instance : DecidablePred Reading := fun pc => by
  unfold Reading
  split <;> infer_instance

/-- Characters that the callbacks under way have still to write; a call that has to search the table
    first may drop its one. -/
def owed : List Op → ℕ
  | [] => 0
  | .lookup ev :: ops => (if ev &&& picoSockEvRd ≠ 0 then 1 else 0) + owed ops
  | .writePipe :: ops => 1 + owed ops
  | .incCount :: ops | .unlockSem _ :: ops => owed ops

/-- Characters that they have still to count. -/
def slots : List Op → ℕ
  | [] => 0
  | .lookup ev :: ops => (if ev &&& picoSockEvRd ≠ 0 then 1 else 0) + slots ops
  | .incCount :: ops => 1 + slots ops
  | .writePipe :: ops | .unlockSem _ :: ops => slots ops

/-- At most one thread reads from the descriptor. -/
def OneReader (w : World n) : Act n → Prop
  | .read _ _ _ => ∀ q, ¬ Reading (w.thread q)
  | _ => True

/-- No reader leaves the drain loop of an empty TCP queue while its announcement is under way. -/
def Settled (w : World n) : Act n → Prop
  | .thread p =>
    match w.thread p with
    | .drainTest _ _ => w.fdWriteCount ≤ 0 → w.socket.proto = .tcp → w.socket.tcp.tcpqIn.size = 0 →
      slots w.todo = 0
    | _ => True
  | _ => True

/-- One reader at a time, and no step leaves a character behind. -/
def Allowed (w : World n) (a : Act n) : Prop := OneReader w a ∧ Settled w a

instance (w : World n) (a : Act n) : Decidable (OneReader w a) := by
  unfold OneReader
  split <;> infer_instance

instance (w : World n) (a : Act n) : Decidable (Settled w a) := by
  unfold Settled
  split
  · split <;> infer_instance
  · infer_instance

instance (w : World n) (a : Act n) : Decidable (Allowed w a) := inferInstanceAs (Decidable (_ ∧ _))

/-- The write of `handle_wakeup` finds room in the pipe. -/
def NeverBlocked (w : World n) : Prop :=
  w.half = none → w.todo.head? = some .writePipe → w.pipe < pipeCapacity

/-- `EV_RD` is pending. -/
def Pending (w : World n) : Prop := w.evPending &&& picoSockEvRd ≠ 0

instance (w : World n) : Decidable (Pending w) := inferInstanceAs (Decidable (_ ≠ _))

/-- Callbacks that the stack thread makes with what is pending before it clears it. -/
def rounds : StackPc → ℕ
  | .rest | .wakeupPending => 2
  | .redeliver => 1
  | .clear => 0

/-- Announcements that are still to come of what is pending. -/
def due (w : World n) : ℕ := if Pending w then rounds w.stack else 0

/-- Characters in the pipe or on their way to it. -/
def notices (w : World n) : ℕ := w.pipe + owed w.todo + due w

/-- What the queue accounts for. -/
def allowance (s : PicoSocket) : ℕ :=
  match s.proto with
  | .tcp => 2 * s.tcp.tcpqIn.size
  | .udp => s.qIn.queue.length + 2

/-- What the accounts may come to. -/
def quota : Proto → ℕ
  | .tcp => 2 * picoDefaultSocketq
  | .udp => picoDefaultSocketq + 2

/-- The queues have their default sizes. -/
structure Fits (s : PicoSocket) : Prop where
  tcp_max : s.tcp.tcpqIn.maxSize = picoDefaultSocketq
  tcp_le : s.tcp.tcpqIn.size ≤ picoDefaultSocketq
  udp_max : s.qIn.maxSize = picoDefaultSocketq
  udp_le : Bounded s.qIn

/-- Two sockets with the same receive queues. -/
structure SameQueues (s t : PicoSocket) : Prop where
  proto : t.proto = s.proto
  tcp : t.tcp.tcpqIn = s.tcp.tcpqIn
  udp : t.qIn = s.qIn

/-- What every run keeps. -/
structure Inv (w : World n) : Prop where
  balanced : Drain.Balanced w.toDesc
  fits : Fits w.socket
  alone : ∀ p q, Reading (w.thread p) → Reading (w.thread q) → p = q
  pending : Pending w → w.socket.proto = .tcp ∧ 0 < w.socket.tcp.tcpqIn.size
  slots_le : slots w.todo + due w ≤ 2
  total : notices w ≤ quota w.socket.proto + allowance w.socket
  window : ∀ p buf len, w.thread p = .sockRead buf len → notices w ≤ allowance w.socket

theorem SameQueues.refl (s : PicoSocket) : SameQueues s s := ⟨rfl, rfl, rfl⟩

theorem SameQueues.fits {s t : PicoSocket} (h : SameQueues s t) (hs : Fits s) : Fits t := by
  refine ⟨?_, ?_, ?_, ?_⟩
  · rw [h.tcp]; exact hs.tcp_max
  · rw [h.tcp]; exact hs.tcp_le
  · rw [h.udp]; exact hs.udp_max
  · rw [h.udp]; exact hs.udp_le

theorem SameQueues.allowance {s t : PicoSocket} (h : SameQueues s t) :
    allowance t = allowance s := by
  rw [Notices.allowance, Notices.allowance, h.proto, h.tcp, h.udp]

theorem Fits.allowance_le {s : PicoSocket} (h : Fits s) : allowance s ≤ quota s.proto := by
  have hudp := h.udp_le.length_le
  rw [h.udp_max] at hudp
  rw [allowance]
  cases s.proto with
  | tcp => exact Nat.mul_le_mul_left 2 h.tcp_le
  | udp => exact Nat.add_le_add_right hudp 2

/-- BOUND: what is to be written next has room. -/
theorem Inv.neverBlocked {w : World n} (h : Inv w) : NeverBlocked w := by
  intro _ hwrite
  have howed : 1 ≤ owed w.todo := by
    cases htodo : w.todo with
    | nil =>
      rw [htodo] at hwrite
      cases hwrite
    | cons op ops =>
      rw [htodo, List.head?_cons, Option.some.injEq] at hwrite
      rw [hwrite, owed]
      exact Nat.le_add_right ..
  have htotal := h.total
  have hle := h.fits.allowance_le
  have hquota : quota w.socket.proto + quota w.socket.proto ≤ pipeCapacity := by
    cases w.socket.proto <;> decide
  rw [notices] at htotal
  omega

theorem owed_append (ops ops' : List Op) : owed (ops ++ ops') = owed ops + owed ops' := by
  induction ops with
  | nil => rw [List.nil_append, owed, Nat.zero_add]
  | cons op ops ih => cases op <;> simp only [List.cons_append, owed, ih, Nat.add_assoc]

theorem slots_append (ops ops' : List Op) : slots (ops ++ ops') = slots ops + slots ops' := by
  induction ops with
  | nil => rw [List.nil_append, slots, Nat.zero_add]
  | cons op ops ih => cases op <;> simp only [List.cons_append, slots, ih, Nat.add_assoc]

/-- What is counted and not written, and written and not counted, is one callback's. -/
theorem owed_add_count (ops : List Op) :
    owed ops + ops.count .incCount = slots ops + ops.count .writePipe := by
  induction ops with
  | nil => rfl
  | cons op ops ih =>
    cases op <;> simp only [owed, slots, List.count_cons, beq_iff_eq, reduceCtorEq, if_true,
      if_false] <;> omega

/-- A call of `handle_wakeup` writes and counts what it stands for, or nothing. -/
theorem handleWakeup_le (found : Bool) (ev : BitVec 16) :
    owed (handleWakeup found ev) ≤ (if ev &&& picoSockEvRd ≠ 0 then 1 else 0) ∧
      slots (handleWakeup found ev) ≤ (if ev &&& picoSockEvRd ≠ 0 then 1 else 0) := by
  cases found with
  | false => exact ⟨Nat.zero_le _, Nat.zero_le _⟩
  | true =>
    rw [handleWakeup, if_pos rfl, owed_append, slots_append]
    split <;> split <;> exact ⟨le_rfl, le_rfl⟩

/-- STEP, inside `handle_wakeup`: a character moves to the pipe, and then to the counter. -/
theorem stackStep_counts {e e' : Entry} (hs : stackStep e = some e') :
    e'.pipe + owed e'.todo ≤ e.pipe + owed e.todo ∧ slots e'.todo ≤ slots e.todo := by
  cases stackStep_move hs with
  | post => exact ⟨le_rfl, le_rfl⟩
  | lookup ev ops hhalf htodo =>
    obtain ⟨howed, hslots⟩ := handleWakeup_le e.inTable ev
    simp only [htodo, owed, slots, owed_append, slots_append]
    omega
  | unlockSem c ops hhalf htodo =>
    rw [htodo]
    exact ⟨le_rfl, le_rfl⟩
  | writePipe ops hhalf htodo hroom =>
    simp only [htodo, owed, slots]
    omega
  | incCount ops hhalf htodo =>
    simp only [htodo, owed, slots]
    omega

/-- At the end of the drain loop nothing is in the pipe but what is under way. -/
theorem drained_notices {w : World n} {p : Fin n} {buf : Buffer} {len : ℤ} (h : Inv w)
    (hpc : w.thread p = .drainTest buf len) (hdone : w.fdWriteCount ≤ 0) :
    notices w ≤ slots w.todo + due w := by
  have hnone : ∑ q, Drain.drained (w.thread q) = 0 := by
    refine Finset.sum_eq_zero ?_
    rintro q -
    by_cases hq : Reading (w.thread q)
    · rw [h.alone q p hq (by rw [hpc]; trivial), hpc]
      rfl
    · cases hthread : w.thread q <;> rw [hthread] at hq <;> first | rfl | exact absurd trivial hq
  have hbal := h.balanced
  have hone := owed_add_count w.todo
  rw [Drain.Balanced, hnone] at hbal
  rw [notices]
  omega

/-- A step that moves no thread and announces no more than it queues. -/
theorem Inv.of_credit {w w' : World n} (h : Inv w) (hbal : Drain.Balanced w'.toDesc)
    (hthread : w'.thread = w.thread) (hfits : Fits w'.socket)
    (hproto : w'.socket.proto = w.socket.proto)
    (hpending : Pending w' → w'.socket.proto = .tcp ∧ 0 < w'.socket.tcp.tcpqIn.size)
    (hslots : slots w'.todo + due w' ≤ 2)
    (hcredit : notices w' + allowance w.socket ≤ notices w + allowance w'.socket) : Inv w' := by
  refine ⟨hbal, hfits, ?_, hpending, hslots, ?_, ?_⟩
  · rw [hthread]
    exact h.alone
  · have htotal := h.total
    rw [hproto]
    omega
  · rintro p buf len hpc
    rw [hthread] at hpc
    have hwindow := h.window p buf len hpc
    omega

/-- Callbacks without `EV_RD` have nothing to write. -/
def Silent (ops : List Op) : Prop := ∀ op ∈ ops, ∃ ev, op = .lookup ev ∧ ev &&& picoSockEvRd = 0

theorem Silent.counts {ops : List Op} (h : Silent ops) : owed ops = 0 ∧ slots ops = 0 ∧
    ops.count .incCount = 0 ∧ ops.count .writePipe = 0 := by
  induction ops with
  | nil => exact ⟨rfl, rfl, rfl, rfl⟩
  | cons op ops ih =>
    obtain ⟨ev, rfl, hrd⟩ := h op (List.mem_cons_self ..)
    obtain ⟨howed, hslots, hinc, hwrite⟩ := ih fun op hop => h op (List.mem_cons_of_mem _ hop)
    have hno : ¬ ev &&& picoSockEvRd ≠ 0 := not_not_intro hrd
    refine ⟨?_, ?_, ?_, ?_⟩
    · rw [owed, if_neg hno, howed]
    · rw [slots, if_neg hno, hslots]
    · rw [List.count_cons_of_ne (by rintro ⟨⟩), hinc]
    · rw [List.count_cons_of_ne (by rintro ⟨⟩), hwrite]

/-- What a frame may do: `EV_RD` becomes pending only with a segment that the queue accepts. -/
structure Input (w w' : World n) : Prop where
  pipe : w'.pipe = w.pipe
  count : w'.fdWriteCount = w.fdWriteCount
  thread : w'.thread = w.thread
  half : w'.half = w.half
  todo : Silent w.todo → Silent w'.todo
  proto : w'.socket.proto = w.socket.proto
  fits : Fits w.socket → Fits w'.socket
  grows : w.socket.tcp.tcpqIn.size ≤ w'.socket.tcp.tcpqIn.size
  pending : Pending w' → Pending w ∨ w.socket.tcp.tcpqIn.size < w'.socket.tcp.tcpqIn.size

theorem Input.refl (w : World n) : Input w w := ⟨rfl, rfl, rfl, rfl, id, rfl, id, le_rfl, .inl⟩

theorem Input.trans {u v w : World n} (h : Input u v) (h' : Input v w) : Input u w := by
  have hgrows := h.grows
  have hgrows' := h'.grows
  refine ⟨h'.pipe.trans h.pipe, h'.count.trans h.count, h'.thread.trans h.thread,
    h'.half.trans h.half, h'.todo ∘ h.todo, h'.proto.trans h.proto, h'.fits ∘ h.fits, hgrows.trans hgrows', ?_⟩
  intro hw
  rcases h'.pending hw with hv | hlt
  · rcases h.pending hv with hu | hlt
    · exact .inl hu
    · exact .inr (by omega)
  · exact .inr (by omega)

theorem or_wr_and_rd (ev : BitVec 16) : (ev ||| picoSockEvWr) &&& picoSockEvRd = ev &&& picoSockEvRd := by
  rw [BitVec.and_or_distrib_right]
  simp

theorem tcpAck_input (w : World n) : Input w { w with evPending := w.evPending ||| picoSockEvWr } := by
  refine ⟨rfl, rfl, rfl, rfl, id, rfl, id, le_rfl, fun hw => .inl ?_⟩
  rw [Pending, or_wr_and_rd] at hw
  exact hw

theorem tcpDataInHighSegment_input (w : World n) (f : TcpInputSegment) (sackOk : Bool) :
    Input w (tcpDataInHighSegment w f sackOk) := by
  rw [tcpDataInHighSegment]
  split
  · simp only
    split
    · exact .refl w
    · next hret =>
      rcases picoEnqueueSegment_size w.socket.tcp.tcpqIn f with
        ⟨hrefused, -⟩ | ⟨hpos, hfit, hsize, hmax⟩
      · exact absurd hrefused hret
      · refine ⟨rfl, rfl, rfl, rfl, id, rfl, ?_, ?_, .inl⟩
        · rintro ⟨htcp, hle, hudp, hbounded⟩
          exact ⟨hmax.trans htcp, by rw [hsize, ← htcp]; exact hfit, hudp, hbounded⟩
        · rw [hsize]
          exact Nat.le_add_right ..
  · exact .refl w

/-- The expected segment: `EV_RD` becomes pending where the queue takes it. -/
theorem tcpDataInExpected_input (w : World n) (f : TcpInputSegment) :
    Input w (match tcpDataInExpected w.socket.tcp f with
      | (t, true) => { w with socket.tcp := t, evPending := w.evPending ||| picoSockEvRd }
      | (_, false) => w) := by
  rcases tcpDataInExpected_size w.socket.tcp f with hsame | ⟨hacc, hpos, hfit, hsize, hmax⟩
  · rw [hsame]
    exact .refl w
  · generalize tcpDataInExpected w.socket.tcp f = r at hacc hsize hmax
    obtain ⟨t, acc⟩ := r
    obtain rfl : acc = true := hacc
    refine ⟨rfl, rfl, rfl, rfl, id, rfl, ?_, ?_, fun _ => .inr ?_⟩
    · rintro ⟨htcp, hle, hudp, hbounded⟩
      exact ⟨hmax.trans htcp, by rw [hsize, ← htcp]; exact hfit, hudp, hbounded⟩
    · rw [hsize]
      exact Nat.le_add_right ..
    · rw [hsize]
      exact Nat.lt_add_of_pos_right hpos

theorem tcpDataIn_input (w : World n) (f : TcpInputSegment) (sackOk : Bool) :
    Input w (tcpDataIn w f sackOk) := by
  rw [tcpDataIn]
  split
  · exact tcpDataInExpected_input w f
  · exact tcpDataInHighSegment_input w f sackOk

theorem tcpAttemptClosewait_queues (s : PicoSocket) (seq : BitVec 32) :
    SameQueues s (tcpAttemptClosewait s seq).1 := by
  rw [tcpAttemptClosewait]
  split
  · simp only
    split <;> exact ⟨rfl, rfl, rfl⟩
  · exact .refl s

theorem tcpClosewait_input (w : World n) (f : TcpInputSegment) (sackOk : Bool) :
    Input w (tcpClosewait w f sackOk) := by
  have hdata : Input w (if 0 < f.payloadLen then tcpDataIn w f sackOk else w) := by
    split
    · exact tcpDataIn_input w f sackOk
    · exact .refl w
  rw [tcpClosewait]
  generalize (if 0 < f.payloadLen then tcpDataIn w f sackOk else w) = v at hdata
  refine hdata.trans ?_
  have hq := tcpAttemptClosewait_queues v.socket f.seq
  refine ⟨rfl, rfl, rfl, rfl, ?_, hq.proto, hq.fits, ?_, .inl⟩
  · rintro - op hop
    simp only at hop
    split at hop
    · exact ⟨_, List.mem_singleton.mp hop, rfl⟩
    · cases hop
  · simp only [hq.tcp, le_refl]

theorem tcpActionByFlags_input (w : World n) (ack fin : Bool) (f : TcpInputSegment) (sackOk : Bool) :
    Input w (tcpActionByFlags w ack fin f sackOk) := by
  have hack : Input w (if ack then { w with evPending := w.evPending ||| picoSockEvWr } else w) := by
    split
    · exact tcpAck_input w
    · exact .refl w
  rw [tcpActionByFlags]
  generalize (if ack then { w with evPending := w.evPending ||| picoSockEvWr } else w) = u at hack
  have hdata : Input u (if 0 < f.payloadLen ∧ u.socket.state = .established then
      tcpDataIn u f sackOk else u) := by
    split
    · exact tcpDataIn_input u f sackOk
    · exact .refl u
  generalize (if 0 < f.payloadLen ∧ u.socket.state = .established then
    tcpDataIn u f sackOk else u) = v at hdata
  split
  · exact (hack.trans hdata).trans (tcpClosewait_input v f sackOk)
  · exact hack.trans hdata

theorem idle_silent {w : World n} (h : Idle w.toEntry) : Silent w.todo := by
  rw [h.2]
  rintro op ⟨⟩

/-- A silent list leaves the counter what the pipe is. -/
theorem balanced_of_silent {d d' : Desc n} (h : Drain.Balanced d) (hpipe : d'.pipe = d.pipe)
    (hcount : d'.fdWriteCount = d.fdWriteCount) (hthread : d'.thread = d.thread)
    (htodo : Silent d.todo) (htodo' : Silent d'.todo) : Drain.Balanced d' := by
  obtain ⟨-, -, hinc, hwrite⟩ := htodo.counts
  obtain ⟨-, -, hinc', hwrite'⟩ := htodo'.counts
  rw [Drain.Balanced, hinc, hwrite] at h
  rw [Drain.Balanced, hinc', hwrite', hpipe, hcount, hthread]
  exact h

/-- STEP, a frame of a connection. -/
theorem inv_deliver {w w' : World n} (h : Inv w) (hidle : Idle w.toEntry) (hrest : w.stack = .rest)
    (htcp : w.socket.proto = .tcp) (hin : Input w w') : Inv { w' with stack := .wakeupPending } := by
  obtain ⟨howed, hslots, -⟩ := (hin.todo (idle_silent hidle)).counts
  have hgrows := hin.grows
  have hproto : w'.socket.proto = .tcp := hin.proto.trans htcp
  have hallow : allowance w.socket = 2 * w.socket.tcp.tcpqIn.size := by rw [allowance, htcp]
  have hallow' : allowance w'.socket = 2 * w'.socket.tcp.tcpqIn.size := by rw [allowance, hproto]
  have hdue : due { w' with stack := .wakeupPending } = if Pending w' then 2 else 0 := rfl
  refine h.of_credit ?_ hin.thread (hin.fits h.fits) hin.proto ?_ ?_ ?_
  · exact balanced_of_silent h.balanced hin.pipe hin.count hin.thread (idle_silent hidle)
      (hin.todo (idle_silent hidle))
  · intro hw
    refine ⟨hproto, ?_⟩
    rcases hin.pending hw with hold | hlt
    · exact (h.pending hold).2.trans_le hgrows
    · exact Nat.zero_lt_of_lt hlt
  · rw [hdue]
    simp only [hslots]
    split <;> omega
  · rw [notices, hdue, notices, due, hrest, hallow, hallow']
    simp only [howed, hin.pipe, rounds]
    by_cases hw : Pending w'
    · rw [if_pos hw]
      rcases hin.pending hw with hold | hlt
      · rw [if_pos hold]
        omega
      · omega
    · rw [if_neg hw]
      omega

/-- A step that leaves the queues and the threads alone, and owes no more than before. -/
theorem Inv.of_same {w w' : World n} (h : Inv w) (hbal : Drain.Balanced w'.toDesc)
    (hthread : w'.thread = w.thread) (hq : SameQueues w.socket w'.socket)
    (hpending : Pending w' → Pending w) (hslots : slots w'.todo + due w' ≤ 2)
    (hnotices : notices w' ≤ notices w) : Inv w' := by
  refine h.of_credit hbal hthread (hq.fits h.fits) hq.proto ?_ hslots ?_
  · intro hw
    rw [hq.proto, hq.tcp]
    exact h.pending (hpending hw)
  · rw [hq.allowance]
    omega

theorem due_eq_zero {w : World n} (h : ¬ Pending w) : due w = 0 := by rw [due, if_neg h]

theorem due_le {w w' : World n} (hpending : Pending w' → Pending w)
    (hrounds : rounds w'.stack ≤ rounds w.stack) : due w' ≤ due w := by
  rw [due, due]
  by_cases hw : Pending w'
  · rw [if_pos hw, if_pos (hpending hw)]
    exact hrounds
  · rw [if_neg hw]
    exact Nat.zero_le _

/-- A control event touches no queue and announces no data. -/
theorem control_outcome {s t : PicoSocket} {e : Event} {evs : List (BitVec 16)} (hc : IsControl e)
    (he : event s e = some (t, evs)) : SameQueues s t ∧ Silent (evs.map .lookup) := by
  have hsilent : ∀ ev : BitVec 16, ev &&& picoSockEvRd = 0 → Silent ([ev].map .lookup) := by
    rintro ev hev op hop
    exact ⟨ev, List.mem_singleton.mp hop, hev⟩
  cases e with
  | segment | fin | segmentFin | datagram => exact absurd hc id
  | syn remote =>
    simp only [event, tcpSyn, Option.map_eq_some_iff, Option.ite_none_right_eq_some] at he
    obtain ⟨u, ⟨-, hu⟩, he⟩ := he
    cases hu
    cases he
    exact ⟨⟨rfl, rfl, rfl⟩, by rintro op ⟨⟩⟩
  | firstAck remote =>
    simp only [event, tcpFirstAck, Option.map_eq_some_iff, Option.ite_none_right_eq_some] at he
    obtain ⟨u, ⟨-, hu⟩, he⟩ := he
    cases hu
    cases he
    exact ⟨⟨rfl, rfl, rfl⟩, hsilent _ rfl⟩
  | synAck seq =>
    simp only [event, tcpSynack, Option.map_eq_some_iff, Option.ite_none_right_eq_some] at he
    obtain ⟨u, ⟨-, hu⟩, he⟩ := he
    cases hu
    cases he
    exact ⟨⟨rfl, rfl, rfl⟩, hsilent _ rfl⟩
  | del ev =>
    simp only [event, Option.ite_none_right_eq_some] at he
    obtain ⟨⟨-, hev⟩, he⟩ := he
    cases he
    refine ⟨⟨rfl, rfl, rfl⟩, hsilent _ ?_⟩
    rcases hev with rfl | rfl <;> rfl

theorem control_pending {w w' : World n} {e : Event} {frame : Bool}
    (hs : control w e frame = some w') : Pending w' ↔ Pending w := by
  simp only [control, Option.map_eq_some_iff] at hs
  obtain ⟨⟨t, evs⟩, -, rfl⟩ := hs
  simp only [Pending]
  split
  · rw [or_wr_and_rd]
  · exact .rfl

/-- STEP, anything else the stack does to the socket. -/
theorem inv_control {w w' : World n} {e : Event} {frame : Bool} (h : Inv w)
    (hrest : Resting w) (hc : IsControl e) (hs : control w e frame = some w') : Inv w' := by
  have hpending := (control_pending hs).mp
  simp only [control, Option.map_eq_some_iff, Prod.exists] at hs
  obtain ⟨t, evs, he, rfl⟩ := hs
  obtain ⟨hq, hsilent⟩ := control_outcome hc he
  obtain ⟨howed, hslots, -⟩ := hsilent.counts
  have hidle := idle_silent hrest.1
  have hrounds : rounds (if frame then StackPc.wakeupPending else .rest) ≤ rounds w.stack := by
    rw [hrest.2]
    split <;> exact le_rfl
  have hle := due_le hpending hrounds
  have hold := h.slots_le
  refine h.of_same ?_ rfl hq hpending ?_ ?_
  · exact balanced_of_silent h.balanced rfl rfl rfl hidle hsilent
  · simp only [hslots]
    omega
  · rw [notices, notices]
    simp only [howed]
    omega

/-- STEP, a datagram. -/
theorem inv_datagram {w : World n} {p : PicoFrame} {t : PicoSocket} {evs : List (BitVec 16)}
    (h : Inv w) (hidle : Idle w.toEntry) (hframed : Framed p)
    (he : event w.socket (.datagram p) = some (t, evs)) :
    Inv { w with socket := t, todo := evs.map .lookup } := by
  simp only [event, Option.ite_none_right_eq_some] at he
  obtain ⟨⟨hudp, -, -⟩, hret, he⟩ := he
  cases he
  obtain ⟨hlen, hlt⟩ := hframed
  have hfits := h.fits
  have hbounded := hfits.udp_le.enqueue (by omega) hlt hret
  have hqueue := picoEnqueue_queue hret
  have hmax : (picoEnqueue w.socket.qIn p).2.maxSize = w.socket.qIn.maxSize := by
    rw [picoEnqueue]
    split
    · rfl
    · split <;> rfl
  -- `ev_pending` is for stream sockets
  have hquiet : ¬ Pending w := by
    intro hw
    have hproto := (h.pending hw).1
    rw [hudp] at hproto
    cases hproto
  have hdue : due w = 0 := due_eq_zero hquiet
  have hdue' : ∀ t ops, due { w with socket := t, todo := ops } = 0 :=
    fun _ _ => due_eq_zero hquiet
  refine h.of_credit ?_ rfl ⟨hfits.tcp_max, hfits.tcp_le, hmax.trans hfits.udp_max, hbounded⟩ rfl
    (fun hw => absurd hw hquiet) ?_ ?_
  · have hbal := h.balanced
    rw [Drain.Balanced, hidle.2] at hbal
    exact hbal
  · have hslots : slots ([picoSockEvRd].map .lookup) = 1 := rfl
    rw [hdue']
    simp only [hslots]
    omega
  · have howed : owed ([picoSockEvRd].map .lookup) = 1 := rfl
    rw [notices, notices, hdue, hdue', allowance, allowance, hidle.2]
    simp only [hudp, hqueue, howed, List.length_append, List.length_singleton]
    omega

/-- What the stack thread calls back with is what was due. -/
theorem due_called {w : World n} {called : StackPc} (hcalled : rounds called + 1 ≤ rounds w.stack)
    (ops : List Op) : (if w.evPending &&& picoSockEvRd ≠ 0 then 1 else 0) +
      due { w with todo := ops, stack := called } ≤ due w := by
  by_cases hw : Pending w
  · have hdue : due { w with todo := ops, stack := called } = rounds called := if_pos hw
    have hrd : w.evPending &&& picoSockEvRd ≠ 0 := hw
    rw [hdue, due, if_pos hw, if_pos hrd]
    omega
  · have hrd : ¬ w.evPending &&& picoSockEvRd ≠ 0 := hw
    rw [if_neg hrd, due_eq_zero hw, Nat.zero_add]
    exact Nat.le_of_eq (due_eq_zero hw)

theorem due_skipped {w : World n} (hnone : ¬ w.evPending ≠ 0) (skipped : StackPc) :
    due { w with stack := skipped } = 0 := by
  have hquiet : ¬ Pending w := by
    intro hw
    exact hw (by rw [not_not.mp hnone]; decide)
  exact due_eq_zero hquiet

/-- STEP, stack thread between two callbacks. -/
theorem inv_callback {w : World n} {called skipped : StackPc} (h : Inv w) (hidle : Idle w.toEntry)
    (hcalled : rounds called + 1 ≤ rounds w.stack) : Inv (callback w called skipped) := by
  have hold := h.slots_le
  have hbal := h.balanced
  rw [Drain.Balanced, hidle.2] at hbal
  rw [callback]
  split
  · have hle := due_called hcalled [.lookup w.evPending]
    refine h.of_same hbal rfl (.refl _) id ?_ ?_
    · simp only [slots]
      omega
    · rw [notices, notices]
      simp only [owed]
      omega
  · next hnone =>
    refine h.of_same h.balanced rfl (.refl _) id ?_ ?_
    · rw [due_skipped hnone]
      exact (Nat.le_add_right ..).trans hold
    · rw [notices, notices, due_skipped hnone]
      exact Nat.le_add_right ..

theorem inv_stackNext {w w' : World n} (h : Inv w) (hidle : Idle w.toEntry)
    (hs : stackNext w = some w') : Inv w' := by
  rw [stackNext] at hs
  cases hpc : w.stack with
  | rest => simp [hpc] at hs
  | wakeupPending | redeliver =>
    simp only [hpc, Option.some.injEq] at hs
    subst hs
    exact inv_callback h hidle (by rw [hpc]; decide)
  | clear =>
    simp only [hpc, Option.some.injEq] at hs
    subst hs
    have hquiet : due { w with evPending := 0, stack := .rest } = 0 :=
      due_eq_zero (not_not_intro (by simp))
    have hold := h.slots_le
    refine h.of_same h.balanced rfl (.refl _) ?_ ?_ ?_
    · intro hw
      exact absurd (by simp) hw
    · rw [hquiet]
      exact (Nat.le_add_right ..).trans hold
    · rw [notices, notices, hquiet]
      exact Nat.le_add_right ..

/-- STEP, stack thread inside `handle_wakeup`. -/
theorem inv_stackStep {w : World n} {e : Entry} (h : Inv w) (hs : stackStep w.toEntry = some e) :
    Inv { w with toEntry := e } := by
  obtain ⟨howed, hslots⟩ := stackStep_counts hs
  have hold := h.slots_le
  have hdue : due { w with toEntry := e } = due w := rfl
  refine h.of_same (Drain.balanced_stackStep h.balanced hs) rfl (.refl _) id ?_ ?_
  · rw [hdue]
    simp only
    omega
  · rw [notices, notices, hdue]
    simp only
    omega

theorem Fits.read {s : PicoSocket} (h : Fits s) (buf : Buffer) (len : ℤ) :
    Fits (picoSocketRead s buf len).1 ∧ (picoSocketRead s buf len).1.proto = s.proto := by
  by_cases hreg : buf = .null ∨ ¬ s.inTree ∨ ¬ s.bound
  · rw [picoSocketRead_unserved hreg]
    exact ⟨h, rfl⟩
  · rw [picoSocketRead_served hreg]
    cases hp : s.proto with
    | udp =>
      simp only [picoSocketUdpRead]
      split
      · exact ⟨h, hp⟩
      · obtain ⟨hbounded, -, hmax⟩ := h.udp_le.recv (toUint16 len)
        exact ⟨⟨h.tcp_max, h.tcp_le, hmax.trans h.udp_max, hbounded⟩, hp⟩
    | tcp =>
      simp only [picoSocketTcpRead]
      split
      · exact ⟨h, hp⟩
      · obtain ⟨hsize, hmax⟩ := picoTcpRead_size s.tcp (toUint32 len)
        have hfits : Fits { s with tcp := (picoTcpRead s.tcp (toUint32 len)).1 } :=
          ⟨hmax.trans h.tcp_max, hsize.trans h.tcp_le, h.udp_max, h.udp_le⟩
        rw [Socket.tcpReadFinish]
        split
        · exact ⟨⟨hfits.tcp_max, hfits.tcp_le, hfits.udp_max, hfits.udp_le⟩, hp⟩
        · exact ⟨hfits, hp⟩

/-- `pico_socket_read` of a stream gets to `pico_tcp_read`, or changes nothing. -/
theorem picoSocketRead_tcp {s : PicoSocket} (htcp : s.proto = .tcp) (buf : Buffer) (len : ℤ) :
    (picoSocketRead s buf len).1.tcp =
      if buf ≠ .null ∧ s.inTree ∧ s.bound ∧ ¬ (s.shutRemote ∧ s.tcp.tcpqIn.frames = 0) then
        (picoTcpRead s.tcp (toUint32 len)).1
      else s.tcp := by
  by_cases hreg : buf = .null ∨ ¬ s.inTree ∨ ¬ s.bound
  · rw [picoSocketRead_unserved hreg, if_neg]
    rintro ⟨hbuf, htree, hbound, -⟩
    exact hreg.elim hbuf fun h => h.elim (absurd htree) (absurd hbound)
  · rw [picoSocketRead_served hreg, htcp]
    simp only [not_or, not_not] at hreg
    obtain ⟨hbuf, htree, hbound⟩ := hreg
    simp only [picoSocketTcpRead, hbuf, htree, hbound, ne_eq, not_false_eq_true, true_and]
    by_cases hshut : s.shutRemote = true ∧ s.tcp.tcpqIn.frames = 0
    · rw [if_pos hshut, if_neg (not_not.mpr hshut)]
    · rw [if_neg hshut, if_pos hshut]
      simp only [Socket.tcpReadFinish]
      split <;> rfl

/-- A read that empties the queue takes `EV_RD` back. -/
theorem tcpReadFinish_pending {s : PicoSocket} {buf : Buffer} {len : ℤ} {ev : BitVec 16}
    (htcp : s.proto = .tcp) (hpos : 0 < s.tcp.tcpqIn.size)
    (h : tcpReadFinish s buf len ev &&& picoSockEvRd ≠ 0) :
    0 < (picoSocketRead s buf len).1.tcp.tcpqIn.size := by
  rw [picoSocketRead_tcp htcp]
  by_cases hreach : buf ≠ .null ∧ s.inTree ∧ s.bound ∧
      ¬ (s.shutRemote ∧ s.tcp.tcpqIn.frames = 0)
  · rw [tcpReadFinish, if_pos ⟨htcp, hreach⟩] at h
    rw [if_pos hreach]
    refine Nat.pos_of_ne_zero ?_
    intro hzero
    simp only [hzero, if_true] at h
    split at h
    · exact h (by simp [BitVec.and_or_distrib_right, BitVec.and_assoc])
    · exact h (by simp [BitVec.and_assoc])
  · rw [if_neg hreach]
    exact hpos

/-- `tcp_read_finish` never sets `EV_RD`. -/
theorem tcpReadFinish_rd {s : PicoSocket} {buf : Buffer} {len : ℤ} {ev : BitVec 16}
    (h : tcpReadFinish s buf len ev &&& picoSockEvRd ≠ 0) : ev &&& picoSockEvRd ≠ 0 := by
  intro hno
  refine h ?_
  have hclear : (ev &&& ~~~picoSockEvRd) &&& picoSockEvRd = 0 := by simp [BitVec.and_assoc]
  have hclose : ∀ b : BitVec 16, (b ||| picoSockEvClose) &&& picoSockEvRd = b &&& picoSockEvRd := by
    intro b
    rw [BitVec.and_or_distrib_right]
    simp
  rw [tcpReadFinish]
  split
  · simp only
    split <;> split <;> simp only [hclose, hclear, hno]
  · exact hno

/-- A thread goes to `k` and takes at most characters from the pipe. -/
theorem Inv.moved {w w' : World n} {p : Fin n} {k : ThreadPc} (h : Inv w)
    (hbal : Drain.Balanced w'.toDesc) (hthread : w'.thread = Function.update w.thread p k)
    (hkept : w'.todo = w.todo ∧ w'.stack = w.stack ∧ w'.evPending = w.evPending)
    (hq : SameQueues w.socket w'.socket) (hpipe : w'.pipe ≤ w.pipe)
    (halone : Reading k → ∀ q, q ≠ p → ¬ Reading (w.thread q))
    (hwindow : ∀ buf len, k = .sockRead buf len → notices w ≤ allowance w.socket) : Inv w' := by
  obtain ⟨htodo, hstack, hev⟩ := hkept
  have hpending : Pending w' ↔ Pending w := by rw [Pending, Pending, hev]
  have hdue : due w' = due w := by simp only [due, hpending, hstack]
  have hnotices : notices w' ≤ notices w := by
    rw [notices, notices, hdue, htodo]
    omega
  have hself : w'.thread p = k := by rw [hthread, Function.update_self]
  have hother : ∀ q, q ≠ p → w'.thread q = w.thread q := by
    intro q hqp
    rw [hthread, Function.update_of_ne hqp]
  refine ⟨hbal, hq.fits h.fits, ?_, ?_, ?_, ?_, ?_⟩
  · intro q r hr hr'
    by_cases hqp : q = p <;> by_cases hrp : r = p
    · rw [hqp, hrp]
    · rw [hqp, hself] at hr
      rw [hother r hrp] at hr'
      exact absurd hr' (halone hr r hrp)
    · rw [hother q hqp] at hr
      rw [hrp, hself] at hr'
      exact absurd hr (halone hr' q hqp)
    · rw [hother q hqp] at hr
      rw [hother r hrp] at hr'
      exact h.alone q r hr hr'
  · rw [hpending, hq.proto, hq.tcp]
    exact h.pending
  · rw [htodo, hdue]
    exact h.slots_le
  · rw [hq.proto, hq.allowance]
    exact hnotices.trans h.total
  · rw [hq.allowance]
    intro q buf len hpc
    refine hnotices.trans ?_
    by_cases hqp : q = p
    · rw [hqp, hself] at hpc
      exact hwindow buf len hpc
    · rw [hother q hqp] at hpc
      exact h.window q buf len hpc

/-- STEP, the reader leaves the drain loop: what it leaves behind is what the queue accounts for. -/
theorem drained_window {w : World n} {p : Fin n} {buf : Buffer} {len : ℤ} (h : Inv w)
    (hpc : w.thread p = .drainTest buf len) (hdone : w.fdWriteCount ≤ 0)
    (hsettled : Settled w (.thread p)) : notices w ≤ allowance w.socket := by
  have hle := drained_notices h hpc hdone
  have hslots := h.slots_le
  rw [allowance]
  cases hproto : w.socket.proto with
  | udp => simp only; omega
  | tcp =>
    simp only
    rcases Nat.eq_zero_or_pos w.socket.tcp.tcpqIn.size with hzero | hpos
    · -- nothing is pending and nothing under way
      have hquiet : ¬ Pending w := by
        intro hw
        have hsize := (h.pending hw).2
        omega
      simp only [Settled, hpc] at hsettled
      rw [hsettled hdone hproto hzero, due_eq_zero hquiet] at hle
      exact hle.trans (Nat.zero_le _)
    · omega

/-- STEP, `pico_socket_read`. -/
theorem inv_sockRead {w w' : World n} {p : Fin n} {buf : Buffer} {len : ℤ} {k : ThreadPc}
    (h : Inv w) (hpc : w.thread p = .sockRead buf len) (hbal : Drain.Balanced w'.toDesc)
    (hk : ∀ b l, k ≠ .sockRead b l)
    (hthread : w'.thread = Function.update w.thread p k)
    (hsocket : w'.socket = (picoSocketRead w.socket buf len).1)
    (hev : w'.evPending = tcpReadFinish w.socket buf len w.evPending)
    (hkept : w'.todo = w.todo ∧ w'.stack = w.stack ∧ w'.pipe = w.pipe) : Inv w' := by
  obtain ⟨htodo, hstack, hpipe⟩ := hkept
  obtain ⟨hfits, hproto⟩ := h.fits.read buf len
  rw [← hsocket] at hfits hproto
  have hreading : Reading (w.thread p) := by rw [hpc]; trivial
  have hother : ∀ q, q ≠ p → ¬ Reading (w'.thread q) := by
    intro q hqp hr
    rw [hthread, Function.update_of_ne hqp] at hr
    exact hqp (h.alone q p hr hreading)
  have hpending : Pending w' → Pending w := by
    intro hw
    rw [Pending, hev] at hw
    exact tcpReadFinish_rd hw
  have hdue := due_le hpending (by rw [hstack])
  have hnotices : notices w' ≤ notices w := by
    rw [notices, notices, htodo, hpipe]
    omega
  have hslots := h.slots_le
  have hwindow := h.window p buf len hpc
  have hallow := h.fits.allowance_le
  refine ⟨hbal, hfits, ?_, ?_, by rw [htodo]; omega, by rw [hproto]; omega, ?_⟩
  · intro q r hr hr'
    by_cases hqp : q = p <;> by_cases hrp : r = p
    · rw [hqp, hrp]
    · exact absurd hr' (hother r hrp)
    · exact absurd hr (hother q hqp)
    · exact absurd hr (hother q hqp)
  · intro hw
    obtain ⟨htcp, hpos⟩ := h.pending (hpending hw)
    rw [Pending, hev] at hw
    exact ⟨hproto.trans htcp, by rw [hsocket]; exact tcpReadFinish_pending htcp hpos hw⟩
  · intro q b l hq
    by_cases hqp : q = p
    · rw [hqp, hthread, Function.update_self] at hq
      exact absurd hq (hk b l)
    · exact absurd (by rw [hq]; trivial) (hother q hqp)

theorem picoSocketAccept_queues (s : PicoSocket) : SameQueues s (picoSocketAccept s).1 := by
  rw [picoSocketAccept]
  split
  · exact .refl s
  · split <;> exact ⟨rfl, rfl, rfl⟩

theorem picoSocketClose_queues (s : PicoSocket) (outEmpty : Bool) :
    SameQueues s (picoSocketClose s outEmpty) := by
  have hnotify : ∀ t : PicoSocket, SameQueues s t →
      SameQueues s (picoTcpNotifyClosing t outEmpty) := by
    rintro t ⟨hproto, htcp, hudp⟩
    rw [picoTcpNotifyClosing]
    split
    · split <;> exact ⟨hproto, htcp, hudp⟩
    · exact ⟨hproto, htcp, hudp⟩
  rw [picoSocketClose]
  split
  · exact ⟨rfl, rfl, rfl⟩
  · rw [picoSocketShutdown]
    split
    · exact .refl s
    · split
      · exact ⟨rfl, rfl, rfl⟩
      · split
        · exact ⟨rfl, rfl, rfl⟩
        · exact hnotify _ ⟨rfl, rfl, rfl⟩

/-- STEP, a thread inside a call. -/
theorem inv_thread {w : World n} {p : Fin n} {d : Desc n} (h : Inv w)
    (hsettled : Settled w (.thread p)) (hs : threadStep w.toDesc p = some d) :
    Inv { w with toDesc := d, evPending := readPending w p } := by
  have hbal := Drain.balanced_threadStep h.balanced hs
  obtain ⟨pc, hpc, hm⟩ := threadStep_move hs
  have halone : Reading pc → ∀ q, q ≠ p → ¬ Reading (w.thread q) := by
    intro hr q hqp hrq
    exact hqp (h.alone q p hrq (by rw [hpc]; exact hr))
  have hev : (∀ buf len, pc ≠ .sockRead buf len) → readPending w p = w.evPending := by
    intro hno
    rw [readPending]
    split
    · next buf len hread => exact absurd (hpc.symm.trans hread) (hno buf len)
    · rfl
  cases hm with
  | readWait buf len hpos =>
    exact h.moved (k := .drainTest buf len) hbal rfl ⟨rfl, rfl, hev (by rintro b l ⟨⟩)⟩ (.refl _)
      le_rfl (fun _ => halone trivial) (by rintro b l ⟨⟩)
  | drainTest buf len =>
    refine h.moved hbal rfl ⟨rfl, rfl, hev (by rintro b l ⟨⟩)⟩ (.refl _)
      le_rfl (fun _ => halone trivial) ?_
    intro b l hl
    split at hl
    · cases hl
    · next hdone => exact drained_window h hpc (not_lt.mp hdone) hsettled
  | drainRead buf len hpos =>
    exact h.moved (k := .drainCount buf len _) hbal rfl ⟨rfl, rfl, hev (by rintro b l ⟨⟩)⟩ (.refl _)
      (Nat.sub_le ..) (fun _ => halone trivial) (by rintro b l ⟨⟩)
  | drainCount buf len c =>
    exact h.moved (k := .drainTest buf len) hbal rfl ⟨rfl, rfl, hev (by rintro b l ⟨⟩)⟩ (.refl _)
      le_rfl (fun _ => halone trivial) (by rintro b l ⟨⟩)
  | sockRead buf len =>
    refine inv_sockRead h hpc hbal ?_ rfl rfl ?_ ⟨rfl, rfl, rfl⟩
    · intro b l
      split <;> rintro ⟨⟩
    · simp only [readPending, hpc]
  | readUnlock ret =>
    exact h.moved (k := .readPost ret _) hbal rfl ⟨rfl, rfl, hev (by rintro b l ⟨⟩)⟩ (.refl _)
      le_rfl (fun _ => halone trivial) (by rintro b l ⟨⟩)
  | readPost ret v =>
    exact h.moved (k := .readDone ret) hbal rfl ⟨rfl, rfl, hev (by rintro b l ⟨⟩)⟩ (.refl _)
      le_rfl (fun _ => halone trivial) (by rintro b l ⟨⟩)
  | readDone ret | acceptDone ret =>
    exact h.moved (k := .away) hbal rfl ⟨rfl, rfl, hev (by rintro b l ⟨⟩)⟩ (.refl _)
      le_rfl (by rintro ⟨⟩) (by rintro b l ⟨⟩)
  | acceptWait hpos =>
    exact h.moved (k := .sockAccept) hbal rfl ⟨rfl, rfl, hev (by rintro b l ⟨⟩)⟩ (.refl _)
      le_rfl (by rintro ⟨⟩) (by rintro b l ⟨⟩)
  | sockAccept =>
    exact h.moved (k := .acceptDone _) hbal rfl ⟨rfl, rfl, hev (by rintro b l ⟨⟩)⟩
      (picoSocketAccept_queues w.socket) le_rfl (by rintro ⟨⟩) (by rintro b l ⟨⟩)

theorem inv_step {w w' : World n} {a : Act n} (h : Inv w) (ha : Allowed w a)
    (hs : step w a = some w') : Inv w' := by
  obtain ⟨hone, hsettled⟩ := ha
  cases a with
  | deliver ack fin f sackOk =>
    simp only [step, Option.ite_none_right_eq_some, Option.some.injEq] at hs
    obtain ⟨⟨⟨hidle, hrest⟩, htcp, -⟩, rfl⟩ := hs
    exact inv_deliver h hidle hrest htcp (tcpActionByFlags_input w ack fin f sackOk)
  | control e frame =>
    simp only [step, Option.ite_none_right_eq_some] at hs
    obtain ⟨⟨hrest, hc⟩, hs⟩ := hs
    exact inv_control h hrest hc hs
  | datagram p =>
    simp only [step, Option.ite_none_right_eq_some, Option.map_eq_some_iff, Prod.exists] at hs
    obtain ⟨⟨⟨hidle, -⟩, hframed⟩, t, evs, he, rfl⟩ := hs
    exact inv_datagram h hidle hframed he
  | loop =>
    simp only [step, Option.ite_none_right_eq_some, Option.some.injEq] at hs
    obtain ⟨⟨⟨hidle, hrest⟩, -⟩, rfl⟩ := hs
    have hdue : due { w with stack := .redeliver } ≤ due w := by
      refine due_le id ?_
      rw [hrest]
      exact Nat.le_succ 1
    have hslots := h.slots_le
    refine h.of_same h.balanced rfl (.refl _) id ?_ ?_
    · simp only
      omega
    · exact Nat.add_le_add_left hdue _
  | stack =>
    rw [step] at hs
    split at hs
    · next hidle => exact inv_stackNext h hidle hs
    · simp only [Option.map_eq_some_iff] at hs
      obtain ⟨e, he, rfl⟩ := hs
      exact inv_stackStep h he
  | read p buf len =>
    simp only [step, Option.map_eq_some_iff] at hs
    obtain ⟨d, hd, rfl⟩ := hs
    have hbal := Drain.balanced_step h.balanced hd
    simp only [Descriptor.step, Option.ite_none_right_eq_some, Option.some.injEq] at hd
    obtain ⟨-, rfl⟩ := hd
    exact h.moved (k := .readWait _ _) hbal rfl ⟨rfl, rfl, rfl⟩ (.refl _) le_rfl
      (fun _ q _ => hone q) (by rintro b l ⟨⟩)
  | accept p =>
    simp only [step, Option.map_eq_some_iff] at hs
    obtain ⟨d, hd, rfl⟩ := hs
    have hbal := Drain.balanced_step h.balanced hd
    simp only [Descriptor.step, Option.ite_none_right_eq_some, Option.some.injEq] at hd
    obtain ⟨-, rfl⟩ := hd
    exact h.moved (k := .acceptWait) hbal rfl ⟨rfl, rfl, rfl⟩ (.refl _) le_rfl
      (by rintro ⟨⟩) (by rintro b l ⟨⟩)
  | thread p =>
    simp only [step, Option.map_eq_some_iff] at hs
    obtain ⟨d, hd, rfl⟩ := hs
    exact inv_thread h hsettled hd
  | close outEmpty =>
    simp only [step, Option.map_eq_some_iff] at hs
    obtain ⟨d, hd, rfl⟩ := hs
    have hbal := Drain.balanced_step h.balanced hd
    simp only [Descriptor.step, Option.ite_none_right_eq_some, Option.some.injEq] at hd
    obtain ⟨-, rfl⟩ := hd
    exact h.of_same hbal rfl (picoSocketClose_queues w.socket outEmpty) id h.slots_le le_rfl

end FdPicotcp.Notices
