import FdPicotcp.Wrapper.Notices

/-! Can `handle_wakeup` block the stack thread on a full pipe?

    Two announcements for every byte that a TCP queue of 16 KiB can take, before and after it is
    emptied, are `2 * 2 * 16384` characters, the capacity of the pipe exactly. So it never is full as
    long as no character is left from before (`never_blocked`), and one too many is enough to block
    (`stack_blocked`). -/

namespace FdPicotcp.Capacity
open Transition CInt TcpQueue UdpQueue Socket Elem Notices
open Descriptor (register)
open HandOver (StackPc)

variable {n : ℕ}

/-- A new descriptor of a socket. -/
def ofSocket (s : PicoSocket) (n : ℕ) : World n :=
  { register s n with evPending := 0, stack := .rest }

/-- A descriptor that `accept()` has registered. -/
def ofChild (c : HandOver.ChildSocket) (n : ℕ) : World n where
  toEntry := c.toEntry
  socket := c.socket
  thread := fun _ => .away
  evPending := c.evPending
  stack := c.stack

/-- What `fd_elem_create` registers: a socket to which no data has come, or a connection in any
    state of its hand-over. -/
inductive Start : World n → Prop
  | socket (s : PicoSocket) (htcp : s.tcp.tcpqIn = (picoSocketOpen s.proto).tcp.tcpqIn)
      (hudp : s.qIn = (picoSocketOpen s.proto).qIn) : Start (ofSocket s n)
  | accepted {seq : BitVec 32} {as : List HandOver.Act} {c d : HandOver.ChildSocket}
      (hr : run HandOver.step (HandOver.tcpSynChild seq) as = some c)
      (hcreate : c.accept = .elemCreate) (hs : HandOver.step c (.accept true) = some d) :
      Start (ofChild d n)

/-- What a socket is like before anything can be written for it. -/
structure Young (w : World n) : Prop where
  half : w.half = none
  lookups : ∀ op ∈ w.todo, ∃ ev, op = .lookup ev
  slots_le : slots w.todo + due w ≤ 2
  fits : Fits w.socket
  pending : Pending w → w.socket.proto = .tcp ∧ 0 < w.socket.tcp.tcpqIn.size

theorem Young.inv {w : World n} (h : Young w) (hpipe : w.pipe = 0) (hcount : w.fdWriteCount = 0)
    (haway : ∀ p, w.thread p = .away) : Inv w := by
  have hno : ∀ p, ¬ Reading (w.thread p) := by
    intro p
    rw [haway p]
    exact id
  have hzero : ∀ op, (∀ ev, op ≠ .lookup ev) → w.todo.count op = 0 := by
    intro op hop
    rw [List.count_eq_zero]
    intro hmem
    obtain ⟨ev, hev⟩ := h.lookups op hmem
    exact hop ev hev
  have hinc := hzero .incCount (by rintro ev ⟨⟩)
  have hwrite := hzero .writePipe (by rintro ev ⟨⟩)
  have hone := owed_add_count w.todo
  have hslots := h.slots_le
  refine ⟨?_, h.fits, fun p _ hp => absurd hp (hno p), h.pending, hslots, ?_, ?_⟩
  · simp [Drain.Balanced, hpipe, hcount, hinc, hwrite, haway, Drain.drained]
  · have hquota : 2 ≤ quota w.socket.proto := by cases w.socket.proto <;> decide
    rw [notices]
    omega
  · intro p buf len hpc
    rw [haway p] at hpc
    cases hpc

theorem fits_open (proto : Proto) : Fits (picoSocketOpen proto) := by
  refine ⟨rfl, Nat.zero_le _, rfl, ?_⟩
  cases proto <;>
    exact bounded_nil rfl rfl (by decide) (by decide) (by decide)

theorem young_socket {s : PicoSocket} (htcp : s.tcp.tcpqIn = (picoSocketOpen s.proto).tcp.tcpqIn)
    (hudp : s.qIn = (picoSocketOpen s.proto).qIn) : Young (ofSocket s n) := by
  have hquiet : ¬ Pending (ofSocket s n) :=
    not_not_intro (show (0 : BitVec 16) &&& picoSockEvRd = 0 by decide)
  have hq : SameQueues (picoSocketOpen s.proto) s := ⟨rfl, htcp, hudp⟩
  refine ⟨rfl, by rintro op ⟨⟩, ?_, hq.fits (fits_open s.proto), fun hw => absurd hw hquiet⟩
  rw [due_eq_zero hquiet]
  exact Nat.zero_le _

section HandOver
open HandOver (ChildSocket)
variable {c c' : ChildSocket}

theorem childDataIn_input (c : ChildSocket) (f : TcpInputSegment) :
    Input (ofChild c n) (ofChild (HandOver.tcpDataIn c f) n) := by
  have h := tcpDataInExpected_input (ofChild c n) f
  rw [HandOver.tcpDataIn]
  rw [show (ofChild c n).socket.tcp = c.socket.tcp from rfl] at h
  generalize tcpDataInExpected c.socket.tcp f = r at h ⊢
  obtain ⟨t, _ | _⟩ := r <;> exact h

theorem childClosewait_input (c : ChildSocket) (seq : BitVec 32) :
    Input (ofChild c n) (ofChild (HandOver.tcpClosewait c seq) n) := by
  have hq := tcpAttemptClosewait_queues c.socket seq
  refine ⟨rfl, rfl, rfl, rfl, ?_, hq.proto, hq.fits, ?_, .inl⟩
  · rintro - op hop
    simp only [HandOver.tcpClosewait, ofChild] at hop
    split at hop
    · exact ⟨_, List.mem_singleton.mp hop, rfl⟩
    · cases hop
  · exact (congrArg (·.size) hq.tcp).ge

theorem childFirstAck_input (c : ChildSocket) :
    Input (ofChild c n) (ofChild (HandOver.tcpFirstAck c) n) := by
  refine ⟨rfl, rfl, rfl, rfl, id, rfl, ?_, le_rfl, (tcpAck_input (ofChild c n)).pending⟩
  rintro ⟨htcp, hle, hudp, hbounded⟩
  exact ⟨htcp, hle, hudp, hbounded⟩

theorem childInput (c : ChildSocket) (first ack fin : Bool) (f : TcpInputSegment) :
    Input (ofChild c n) (ofChild (HandOver.picoTcpInput c first ack fin f) n) := by
  have hack : Input (ofChild c n) (ofChild
      (if first then HandOver.tcpFirstAck c else if ack then HandOver.tcpAck c else c) n) := by
    split
    · exact childFirstAck_input c
    · split
      · exact tcpAck_input (ofChild c n)
      · exact .refl _
  rw [HandOver.picoTcpInput]
  generalize (if first then HandOver.tcpFirstAck c else if ack then HandOver.tcpAck c else c) = d
    at hack
  have hdata : Input (ofChild d n)
      (ofChild (if 0 < f.payloadLen then HandOver.tcpDataIn d f else d) n) := by
    split
    · exact childDataIn_input d f
    · exact .refl _
  generalize (if 0 < f.payloadLen then HandOver.tcpDataIn d f else d) = e at hdata
  split
  · exact (hack.trans hdata).trans (childClosewait_input e f.seq)
  · exact hack.trans hdata

/-- The hand-over before `fd_elem_create`. -/
def Unregistered (c : ChildSocket) : Prop :=
  c.accept = .sockAccept ∨ c.accept = .pipe ∨ c.accept = .elemCreate

theorem rounds_le (pc : StackPc) : rounds pc ≤ 2 := by cases pc <;> decide

theorem due_le_two (w : World n) : due w ≤ 2 := by
  rw [due]
  split
  · exact rounds_le w.stack
  · exact Nat.zero_le _

/-- STEP, a frame: what was pending stays so, and nothing is under way. -/
theorem Young.input {w w' : World n} (h : Young w) (hidle : Idle w.toEntry) (hin : Input w w')
    (htcp : w.socket.proto = .tcp) :
    Young { w' with stack := .wakeupPending } := by
  have hsilent := hin.todo (idle_silent hidle)
  have hdue := due_le_two { w' with stack := .wakeupPending }
  refine ⟨hin.half.trans h.half, ?_, ?_, hin.fits h.fits, ?_⟩
  · intro op hop
    obtain ⟨ev, hev, -⟩ := hsilent op hop
    exact ⟨ev, hev⟩
  · simp only [hsilent.counts.2.1, Nat.zero_add]
    exact hdue
  · intro hw
    refine ⟨hin.proto.trans htcp, ?_⟩
    rcases hin.pending hw with hold | hlt
    · exact (h.pending hold).2.trans_le hin.grows
    · exact Nat.zero_lt_of_lt hlt

/-- STEP, the stack thread searches a table that does not hold the entry. -/
theorem Young.stackStep {w : World n} {e : Entry} (h : Young w) (hout : w.inTable = false)
    (hs : stackStep w.toEntry = some e) : Young { w with toEntry := e } := by
  have hold := h.slots_le
  have hdue : due { w with toEntry := e } = due w := rfl
  have hlook := h.lookups
  cases stackStep_move hs with
  | post c v hhalf =>
    rw [h.half] at hhalf
    cases hhalf
  | lookup ev ops hhalf htodo =>
    have hbody : handleWakeup w.inTable ev ++ ops = ops := by rw [hout]; rfl
    rw [htodo, slots] at hold
    refine ⟨h.half, ?_, ?_, h.fits, h.pending⟩
    · intro op hop
      simp only [hbody] at hop
      exact hlook op (by rw [htodo]; exact List.mem_cons_of_mem _ hop)
    · rw [hdue]
      simp only [hbody]
      omega
  | unlockSem c ops hhalf htodo | writePipe ops hhalf htodo | incCount ops hhalf htodo =>
    obtain ⟨ev, hev⟩ := hlook _ (by rw [htodo]; exact List.mem_cons_self ..)
    cases hev

/-- STEP, stack thread between two callbacks; what a parent keeps pending is called back again. -/
theorem Young.stackNext (h : Young (ofChild c n)) (hidle : Idle c.toEntry)
    (hs : HandOver.stackNext c = some c') : Young (ofChild c' n) := by
  have hold := h.slots_le
  have hcall : ∀ called skipped, rounds called + 1 ≤ rounds c.stack →
      Young (ofChild (HandOver.callback c called skipped) n) := by
    intro called skipped hcalled
    rw [HandOver.callback]
    split
    · refine ⟨h.half, fun op hop => ⟨_, List.mem_singleton.mp hop⟩, ?_, h.fits, h.pending⟩
      have hle := due_called (w := ofChild c n) hcalled [.lookup c.evPending]
      exact hle.trans ((Nat.le_add_left ..).trans hold)
    · next hnone =>
      refine ⟨h.half, h.lookups, ?_, h.fits, h.pending⟩
      have hdue := due_skipped (w := ofChild c n) hnone skipped
      exact (Nat.add_le_add_left hdue.le _).trans ((Nat.le_add_right ..).trans hold)
  rw [HandOver.stackNext] at hs
  cases hpc : c.stack with
  | rest => simp [hpc] at hs
  | wakeupPending | redeliver =>
    simp only [hpc, Option.some.injEq] at hs
    subst hs
    exact hcall _ _ (by rw [hpc]; decide)
  | clear =>
    simp only [hpc, Option.some.injEq] at hs
    subst hs
    refine ⟨h.half, h.lookups, ?_, h.fits, ?_⟩
    · have hslots : slots c.todo = 0 := by rw [hidle.2]; rfl
      exact (Nat.add_le_add hslots.le (due_le_two _)).trans_eq (Nat.zero_add 2)
    · intro hw
      by_cases hparent : c.parent = true
      · simp only [ofChild, Pending, hparent, if_true] at hw
        exact h.pending hw
      · simp [ofChild, Pending, hparent] at hw

/-- Before `fd_elem_create` no entry is found and at most two announcements are due. -/
structure Pristine (c : ChildSocket) (n : ℕ) : Prop where
  out : c.inTable = false
  proto : c.socket.proto = .tcp
  young : Young (ofChild c n)

theorem stackNext_kept (hs : HandOver.stackNext c = some c') :
    c'.inTable = c.inTable ∧ c'.socket = c.socket ∧ c'.accept = c.accept := by
  have hcall : ∀ called skipped, (HandOver.callback c called skipped).inTable = c.inTable ∧
      (HandOver.callback c called skipped).socket = c.socket ∧
      (HandOver.callback c called skipped).accept = c.accept := by
    intro called skipped
    rw [HandOver.callback]
    split <;> exact ⟨rfl, rfl, rfl⟩
  rw [HandOver.stackNext] at hs
  split at hs
  · cases hs
  · cases hs
    exact hcall _ _
  · cases hs
    exact hcall _ _
  · cases hs
    exact ⟨rfl, rfl, rfl⟩

/-- STEP, hand-over. -/
theorem pristine_step {a : HandOver.Act} (h : Unregistered c → Pristine c n)
    (hs : HandOver.step c a = some c') (hc' : Unregistered c') : Pristine c' n := by
  cases a with
  | deliver first ack fin f =>
    simp only [HandOver.step, Option.ite_none_right_eq_some, Option.some.injEq] at hs
    obtain ⟨⟨hidle, -, hhandled⟩, rfl⟩ := hs
    obtain ⟨hout, -, hacc, -⟩ := (HandOver.picoTcpInput_outcome hhandled.1 ack fin f).same
    obtain ⟨hin, hproto, hyoung⟩ := h (by rw [Unregistered, ← hacc]; exact hc')
    have hinput := childInput (n := n) c first ack fin f
    exact ⟨hout.trans hin, hinput.proto.trans hproto, hyoung.input hidle hinput hproto⟩
  | loop =>
    simp only [HandOver.step, Option.ite_none_right_eq_some, Option.some.injEq] at hs
    obtain ⟨⟨hidle, -⟩, rfl⟩ := hs
    obtain ⟨hin, hproto, hyoung⟩ := h hc'
    refine ⟨hin, hproto, hyoung.half, hyoung.lookups, ?_, hyoung.fits, hyoung.pending⟩
    have hslots : slots c.todo = 0 := by rw [hidle.2]; rfl
    exact (Nat.add_le_add hslots.le (due_le_two _)).trans_eq (Nat.zero_add 2)
  | stack =>
    rw [HandOver.step] at hs
    split at hs
    · next hidle =>
      obtain ⟨hout, hsocket, hacc⟩ := stackNext_kept hs
      obtain ⟨hin, hproto, hyoung⟩ := h (by rw [Unregistered, ← hacc]; exact hc')
      exact ⟨hout.trans hin, by rw [hsocket]; exact hproto, hyoung.stackNext hidle hs⟩
    · simp only [Option.map_eq_some_iff] at hs
      obtain ⟨e, he, rfl⟩ := hs
      obtain ⟨hin, hproto, hyoung⟩ := h hc'
      exact ⟨(stackStep_inTable he).trans hin, hproto, hyoung.stackStep hin he⟩
  | accept ok =>
    simp only [HandOver.step, HandOver.acceptStep] at hs
    cases hacc : c.accept with
    | sockAccept =>
      obtain ⟨hin, hproto, hyoung⟩ := h (.inl hacc)
      simp only [hacc] at hs
      split at hs <;> cases hs <;> exact ⟨hin, hproto, hyoung⟩
    | pipe =>
      obtain ⟨hin, hproto, hyoung⟩ := h (.inr (.inl hacc))
      simp only [hacc] at hs
      cases hs
      exact ⟨hin, hproto, hyoung⟩
    | elemCreate =>
      simp only [hacc] at hs
      split at hs <;> cases hs <;> simp [Unregistered] at hc'
    | ret =>
      simp only [hacc] at hs
      cases hs
      simp [Unregistered] at hc'
    | done fd => simp [hacc] at hs

theorem pristine_tcpSynChild (seq : BitVec 32) : Pristine (HandOver.tcpSynChild seq) n := by
  have hquiet : ¬ Pending (ofChild (HandOver.tcpSynChild seq) n) :=
    not_not_intro (show (0 : BitVec 16) &&& picoSockEvRd = 0 by decide)
  have hq : SameQueues (picoSocketOpen .tcp) (HandOver.tcpSynChild seq).socket := ⟨rfl, rfl, rfl⟩
  refine ⟨rfl, rfl, rfl, by rintro op ⟨⟩, ?_, hq.fits (fits_open .tcp), fun hw => absurd hw hquiet⟩
  rw [due_eq_zero hquiet]
  exact Nat.zero_le _

end HandOver

/-- START: nothing has been written for a new descriptor. -/
theorem Start.inv {w : World n} (h : Start w) : Inv w := by
  cases h with
  | socket s htcp hudp => exact (young_socket htcp hudp).inv rfl rfl fun _ => rfl
  | accepted hr hcreate hs =>
    next seq as c d =>
    have hpristine : Unregistered c → Pristine c n :=
      run_invariant (fun _ _ _ hi hs => pristine_step hi hs)
        (fun _ => pristine_tcpSynChild seq) hr
    have hyoung := (hpristine (.inr (.inr hcreate))).young
    simp only [HandOver.step, HandOver.acceptStep, hcreate, if_true, Option.some.injEq] at hs
    subst hs
    refine Young.inv ⟨hyoung.half, hyoung.lookups, ?_, hyoung.fits, hyoung.pending⟩ rfl rfl
      fun _ => rfl
    exact hyoung.slots_le

/-- THE STACK THREAD IS NEVER BLOCKED in a run in which at most one thread reads from the descriptor
    and none leaves an announcement behind. -/
theorem never_blocked {w₀ w : World n} {as : List (Act n)} (h : Start w₀)
    (hm : Meets step Allowed w₀ as) (hr : run step w₀ as = some w) : NeverBlocked w :=
  Inv.neverBlocked (run_keeps (fun _ _ _ hi ha hs => inv_step hi ha hs) h.inv hm hr)

/-- A byte arrives, and a second one while a reader is past the drain loop; it reads both. -/
def twoBytes : List (Act 2) :=
  [.read 0 .valid 10, .accept 1, .deliver true false (.ofBytes 0 [1]) false] ++
    List.replicate 13 .stack ++ List.replicate 6 (.thread 0) ++
    .deliver false false (.ofBytes 1 [2]) false :: List.replicate 3 .stack ++ [.thread 0]

theorem twoBytes_runs : (run step (ofSocket (connectedSocket 0) 2) twoBytes).isSome := by
  decide +kernel

theorem never_blocked_twoBytes : NeverBlocked (Option.get _ twoBytes_runs) :=
  never_blocked (.socket _ rfl rfl) (by decide +kernel) (Option.some_get twoBytes_runs).symm

/-- A connection between two rounds whose pipe holds `x` characters and whose queue `k` bytes. -/
structure Filling (w : World n) (x k : ℕ) : Prop where
  resting : Resting w
  quiet : w.evPending = 0
  found : w.inTable = true
  posted : 0 < w.sem .read
  pipe : w.pipe = x
  size : w.socket.tcp.tcpqIn.size = k
  max : w.socket.tcp.tcpqIn.maxSize = picoDefaultSocketq
  order : InOrder w.socket.tcp w.socket.tcp.rcvNxt
  kind : w.socket.proto = .tcp ∧ w.socket.inTree = true ∧ w.socket.state = .established
  peer : w.socket.bound = true ∧ peerClosed w.socket = false

theorem path_stack {w w' : World n} {m : ℕ}
    (hr : run step w (List.replicate m .stack) = some w') : Path step OneReader w w' := by
  refine ⟨_, ?_, hr⟩
  clear hr
  induction m generalizing w with
  | zero => trivial
  | succ m ih =>
    rw [List.replicate_succ, Meets]
    refine ⟨trivial, ?_⟩
    split
    · trivial
    · exact ih

/-- A call of `handle_wakeup(EV_RD)` that finds the entry posted. -/
theorem wakeup_runs {w : World n} (hhalf : w.half = none) (htodo : w.todo = [.lookup picoSockEvRd])
    (hfound : w.inTable = true) (hposted : 0 < w.sem .read) (hroom : w.pipe < pipeCapacity) :
    run step w (List.replicate 5 .stack) =
      some { w with todo := [], pipe := w.pipe + 1, fdWriteCount := w.fdWriteCount + 1 } := by
  obtain ⟨⟨⟨count, sem, pipe, inTable, half, todo⟩, socket, thread⟩, ev, pc⟩ := w
  simp only at hhalf htodo hfound hposted hroom
  subst hhalf htodo hfound
  simp [run, step, Idle, stackStep, handleWakeup, postUnless, hroom, hposted]

/-- One of the two announcements of a segment. -/
theorem announce_runs {w : World n} {next : StackPc} (hidle : Idle w.toEntry)
    (hev : w.evPending = picoSockEvRd) (hfound : w.inTable = true) (hposted : 0 < w.sem .read)
    (hroom : w.pipe < pipeCapacity)
    (hnext : w.stack = .wakeupPending ∧ next = .redeliver ∨ w.stack = .redeliver ∧ next = .clear) :
    run step w (List.replicate 6 .stack) = some { w with
      todo := []
      pipe := w.pipe + 1
      fdWriteCount := w.fdWriteCount + 1
      stack := next } := by
  let v : World n := { w with todo := [.lookup picoSockEvRd], stack := next }
  have hne : w.evPending ≠ 0 := by rw [hev]; decide
  have hcall : step w .stack = some v := by
    rw [step, if_pos hidle, stackNext]
    rcases hnext with ⟨hpc, rfl⟩ | ⟨hpc, rfl⟩
    · simp only [hpc, callback, if_pos hne, v, ← hev]
    · simp only [hpc, callback, if_pos hne, v, ← hev]
  have hv := wakeup_runs (w := v) hidle.1 rfl hfound hposted hroom
  rw [List.replicate_succ]
  exact run_cons.mpr ⟨v, hcall, hv⟩

/-- The next byte of the stream. -/
def nextByte (w : World n) : TcpInputSegment := ⟨w.socket.tcp.rcvNxt, [0], by decide⟩

/-- The queue takes the next byte, and `EV_RD` is pending. -/
theorem Filling.deliver {w : World n} {x k : ℕ} (h : Filling w x k) (hk : k < picoDefaultSocketq) :
    ∃ t, step w (.deliver false false (nextByte w) false) = some { w with
        socket.tcp := t
        evPending := picoSockEvRd
        stack := .wakeupPending } ∧
      InOrder t t.rcvNxt ∧ t.tcpqIn.size = k + 1 ∧ t.tcpqIn.maxSize = picoDefaultSocketq ∧
        t.remoteClosed = w.socket.tcp.remoteClosed := by
  obtain ⟨htcp, htree, hest⟩ := h.kind
  have hlen : (nextByte w).payloadLen = 1 := rfl
  have hfit : w.socket.tcp.tcpqIn.size + (nextByte w).payloadLen ≤ w.socket.tcp.tcpqIn.maxSize := by
    rw [h.size, h.max, hlen]
    omega
  obtain ⟨u, hu, hin, -, hclosed, -⟩ := tcpDataInExpected_inOrder h.order rfl (by rw [hlen]; omega)
    hfit
  rcases tcpDataInExpected_size w.socket.tcp (nextByte w) with hsame | ⟨-, -, -, hsize, hmax⟩
  · rw [hsame] at hu
    cases hu
  · rw [hu] at hsize hmax
    refine ⟨u, ?_, hin, by rw [hsize, h.size, hlen], hmax.trans h.max, hclosed⟩
    have hself : picoSeqCompare (nextByte w).seq w.socket.tcp.rcvNxt ≤ 0 := by
      rw [nextByte, picoSeqCompare_eq, BitVec.sub_self]
      rfl
    have hdata : Notices.tcpDataIn w (nextByte w) false =
        { w with socket.tcp := u, evPending := picoSockEvRd } := by
      rw [Notices.tcpDataIn, if_pos hself, hu]
      simp only [h.quiet]
      rfl
    rw [step, if_pos ⟨h.resting, htcp, htree, .inl hest⟩, tcpActionByFlags]
    simp only [Bool.false_eq_true, if_false, hlen, hest, Nat.one_pos, and_self, if_true, hdata]

/-- STEP: a byte is two characters. -/
theorem Filling.next {w : World n} {x k : ℕ} (h : Filling w x k) (hk : k < picoDefaultSocketq)
    (hx : x + 2 ≤ pipeCapacity) : ∃ w', Path step OneReader w w' ∧ Filling w' (x + 2) (k + 1) ∧
      w'.thread = w.thread := by
  obtain ⟨t, hs, hin, hsize, hmax, hclosed⟩ := h.deliver hk
  obtain ⟨hidle, hrest⟩ := h.resting
  have hpipe := h.pipe
  let v : World n := { w with socket.tcp := t, evPending := picoSockEvRd, stack := .wakeupPending }
  let v₁ : World n := { v with
    todo := []
    pipe := v.pipe + 1
    fdWriteCount := v.fdWriteCount + 1
    stack := .redeliver }
  let v₂ : World n := { v₁ with
    todo := []
    pipe := v₁.pipe + 1
    fdWriteCount := v₁.fdWriteCount + 1
    stack := .clear }
  have h₁ : run step v (List.replicate 6 .stack) = some v₁ :=
    announce_runs hidle rfl h.found h.posted (by simp only [v]; omega) (.inl ⟨rfl, rfl⟩)
  have h₂ : run step v₁ (List.replicate 6 .stack) = some v₂ :=
    announce_runs ⟨hidle.1, rfl⟩ rfl h.found h.posted (by simp only [v₁, v]; omega)
      (.inr ⟨rfl, rfl⟩)
  have h₃ : step v₂ .stack = some { v₂ with evPending := 0, stack := .rest } := by
    rw [step, if_pos ⟨hidle.1, rfl⟩, stackNext]
  refine ⟨_, ((Path.single (a := .deliver ..) trivial hs).trans (path_stack h₁)).trans
    ((path_stack h₂).trans (Path.single (a := .stack) trivial h₃)), ?_, rfl⟩
  obtain ⟨hbound, hopen⟩ := h.peer
  refine ⟨⟨⟨hidle.1, rfl⟩, rfl⟩, rfl, h.found, h.posted, ?_, hsize, hmax, hin, h.kind, hbound, ?_⟩
  · simp only [v₂, v₁, v]
    omega
  · rw [peerClosed] at hopen ⊢
    simp only [v₂, v₁, v, hclosed]
    exact hopen

/-- RUN: bytes that nobody reads. -/
theorem Filling.fill {w : World n} {x k : ℕ} (h : Filling w x k) (m : ℕ)
    (hk : k + m ≤ picoDefaultSocketq) (hx : x + 2 * m ≤ pipeCapacity) :
    ∃ w', Path step OneReader w w' ∧ Filling w' (x + 2 * m) (k + m) ∧ w'.thread = w.thread := by
  induction m with
  | zero => exact ⟨w, .refl w, h, rfl⟩
  | succ m ih =>
    obtain ⟨u, hpath, hu, hthread⟩ := ih (by omega) (by omega)
    obtain ⟨w', hpath', hw', hthread'⟩ := hu.next (by omega) (by omega)
    exact ⟨w', hpath.trans hpath', hw', hthread'.trans hthread⟩

/-- STEP: a reader takes more than there is. -/
theorem Filling.read {w : World n} {p : Fin n} {x k len : ℕ} (h : Filling w x k)
    (hpc : w.thread p = .sockRead .valid len) (hlen : k < len) (hlt : len < 2 ^ 31) :
    ∃ w', Path step OneReader w w' ∧ Filling w' x 0 := by
  obtain ⟨htcp, htree, hest⟩ := h.kind
  obtain ⟨hbound, hopen⟩ := h.peer
  obtain ⟨hshut, hclosed⟩ := Bool.or_eq_false_iff.mp hopen
  have huint : toUint32 len = len := by rw [toUint32]; omega
  have hrange : len < 2 ^ 32 := by omega
  obtain ⟨u, hu, hin, -, hempty⟩ := picoTcpRead_inOrder h.order hrange
  obtain ⟨hnxt, hrc⟩ := picoTcpReadLoop_frame len (w.socket.tcp.tcpqIn.size + 1) w.socket.tcp 0 []
  rw [← picoTcpRead, hu] at hnxt hrc
  have hmax := (picoTcpRead_size w.socket.tcp len).2
  rw [hu] at hmax
  have hpool : u.tcpqIn.pool = [] := by
    refine hempty ((unread_length_le w.socket.tcp).trans_lt ?_)
    rw [← h.order.size_eq, h.size]
    exact hlen
  have hsize : u.tcpqIn.size = 0 := by rw [hin.size_eq, hpool]; rfl
  have hreach : Buffer.valid ≠ .null ∧ w.socket.inTree ∧ w.socket.bound ∧
      ¬ (w.socket.shutRemote ∧ w.socket.tcp.tcpqIn.frames = 0) :=
    ⟨by decide, htree, hbound, fun hno => by rw [hshut] at hno; cases hno.1⟩
  have hstays : u.remoteClosed = false := hrc.trans hclosed
  have hread : (picoSocketRead w.socket .valid len).1 = { w.socket with tcp := u } := by
    rw [picoSocketRead_served (by simp [htree, hbound]), htcp]
    simp only
    rw [picoSocketTcpRead, if_neg hreach.2.2.2, huint, hu]
    simp only [Socket.tcpReadFinish, hstays, Bool.false_eq_true, if_false]
  have hev : readPending w p = 0 := by
    rw [readPending, hpc]
    simp only [Notices.tcpReadFinish, if_pos (And.intro htcp hreach), huint, hu, hstays, hsize,
      h.quiet, Bool.false_eq_true, if_false, if_true]
    rfl
  let d : Descriptor.Desc n := { w.goto p
      (if (len : ℤ) = (picoSocketRead w.socket .valid len).2.1
        then .readUnlock (picoSocketRead w.socket .valid len).2.1
        else .readDone (picoSocketRead w.socket .valid len).2.1) with
    socket := (picoSocketRead w.socket .valid len).1 }
  have hs : step w (.thread p) = some { w with toDesc := d, evPending := readPending w p } := by
    rw [step, Descriptor.threadStep, hpc]
    rfl
  refine ⟨_, Path.single (a := .thread p) trivial hs, ⟨h.resting.1, h.resting.2⟩, hev, h.found,
    h.posted, h.pipe, ?_, ?_, ?_, ?_, ?_⟩
  · simp only [d, hread, hsize]
  · simp only [d, hread]
    exact hmax.trans h.max
  · simp only [d, hread]
    rw [show u.rcvNxt = _ from hnxt]
    exact hin
  · simp only [d, hread]
    exact h.kind
  · simp only [d, hread, peerClosed, hstays]
    exact ⟨hbound, by rw [hshut]; rfl⟩

/-- A reader takes the first byte, and the second one before it is announced; then it has left the
    drain loop of an empty queue while the character of the second byte is on its way. -/
def overtaking : List (Act 1) :=
  .deliver false false (.ofBytes 0 [1]) false :: List.replicate 13 .stack ++
    .read 0 .valid 1 :: List.replicate 9 (.thread 0) ++
    .deliver false false (.ofBytes 1 [2]) false :: List.replicate 2 .stack ++
    .read 0 .valid 1 :: List.replicate 6 (.thread 0) ++
    .read 0 .valid 20000 :: List.replicate 2 (.thread 0) ++ List.replicate 5 .stack

theorem overtaking_runs : (run step (ofSocket (connectedSocket 0) 1) overtaking).isSome := by
  decide +kernel

theorem overtaking_filling : Filling (Option.get _ overtaking_runs) 1 0 ∧
    (Option.get _ overtaking_runs).thread 0 = .sockRead .valid 20000 := by
  have hpool : (Option.get _ overtaking_runs).socket.tcp.tcpqIn.pool = [] := by decide +kernel
  refine ⟨⟨by decide +kernel, by decide +kernel, by decide +kernel, by decide +kernel,
    by decide +kernel, by decide +kernel, by decide +kernel, ?_, by decide +kernel,
    by decide +kernel⟩, by decide +kernel⟩
  refine (inOrder_of_chain ?_ ?_ ?_ ?_ ?_).1
  · rw [hpool, Chain]
    decide +kernel
  · rw [hpool]
    decide +kernel
  · rw [hpool]
    decide +kernel
  · decide +kernel
  · decide +kernel

/-- With one character left from before, 16384 bytes on each side of the read fill the pipe, and the
    last character finds no room. -/
theorem stack_blocked : ¬ ∀ (as : List (Act 1)) (w : World 1),
    Meets step OneReader (ofSocket (connectedSocket 0) 1) as →
    run step (ofSocket (connectedSocket 0) 1) as = some w → NeverBlocked w := by
  intro h
  obtain ⟨hstart, hpc⟩ := overtaking_filling
  have hpath : Path step OneReader (ofSocket (connectedSocket 0) 1) (Option.get _ overtaking_runs) :=
    ⟨overtaking, by decide +kernel, (Option.some_get overtaking_runs).symm⟩
  obtain ⟨w₁, hpath₁, hw₁, hthread⟩ := hstart.fill 16384 (by decide) (by decide)
  obtain ⟨w₂, hpath₂, hw₂⟩ := hw₁.read (hthread ▸ hpc) (by decide) (by decide)
  obtain ⟨w₃, hpath₃, hw₃, -⟩ := hw₂.fill 16383 (by decide) (by decide)
  obtain ⟨t, hs, -⟩ := hw₃.deliver (by decide)
  obtain ⟨hidle, -⟩ := hw₃.resting
  have hpipe := hw₃.pipe
  -- the last segment: its first character fits
  let v : World 1 := { w₃ with
    socket.tcp := t
    evPending := picoSockEvRd
    stack := .wakeupPending }
  let v₁ : World 1 := { v with
    todo := []
    pipe := v.pipe + 1
    fdWriteCount := v.fdWriteCount + 1
    stack := .redeliver }
  let v₂ : World 1 := { v₁ with
    todo := [.writePipe, .incCount, .unlockSem .read]
    stack := .clear }
  have h₁ : run step v (List.replicate 6 .stack) = some v₁ := by
    refine announce_runs hidle rfl hw₃.found hw₃.posted ?_ (.inl ⟨rfl, rfl⟩)
    simp only [v, hpipe]
    decide
  have h₂ : run step v₁ (List.replicate 2 .stack) = some v₂ := by
    have hfound := hw₃.found
    have hhalf := hidle.1
    simp [run, step, Idle, stackNext, callback, stackStep, handleWakeup, v₁, v₂, v, hfound, hhalf]
  obtain ⟨as, hm, hr⟩ := (((hpath.trans hpath₁).trans hpath₂).trans hpath₃).trans
    (((Path.single (a := .deliver ..) trivial hs).trans (path_stack h₁)).trans (path_stack h₂))
  have hroom := h as v₂ hm hr hidle.1 rfl
  simp only [v₂, v₁, v, hpipe] at hroom
  exact absurd hroom (by decide)

end FdPicotcp.Capacity
