import Mathlib.Data.Fintype.Option
import FdPicotcp.Wrapper.Announce
import FdPicotcp.Wrapper.Drain

/-! Lost wake-ups: when does queued work imply a token in the semaphore its consumers wait on?

    On a stream socket a read into a buffer that leaves bytes behind has filled it and posts again;
    only a read without a buffer takes the token and leaves everything. A datagram read takes one
    datagram and an accept takes one connection, and neither posts for what stays behind. These
    wake-ups survive while no such call is the last party with credit. -/

namespace FdPicotcp.Wakeups
open Transition CInt UdpQueue Socket Elem Descriptor Drain Announce

variable {n : ℕ}

/-- A `pico_socket_read` that leaves data behind refills the token or is covered for. -/
def ReadKeeps (d : Desc n) : Act n → Prop
  | .thread p =>
    match d.thread p with
    | .sockRead buf len => readLeaves d.socket buf len →
      readFills d.socket buf len ∨ Token.CreditBut (abs .read d) (some p)
    | _ => True
  | _ => True

/-- A `pico_socket_read` without a buffer that leaves data behind returns its length, -1, or is covered
    for. -/
def NullKeeps (d : Desc n) : Act n → Prop
  | .thread p =>
    match d.thread p with
    | .sockRead .null len => hasData d.socket → len = -1 ∨ Token.CreditBut (abs .read d) (some p)
    | _ => True
  | _ => True

/-- A `pico_socket_accept` that leaves a connection behind is covered for. -/
def AcceptKeeps (d : Desc n) : Act n → Prop
  | .thread p => d.thread p = .sockAccept → acceptLeaves d.socket →
    Token.CreditBut (abs .accept d) (some p)
  | _ => True

instance (d : Desc n) (a : Act n) : Decidable (ReadKeeps d a) := by
  unfold ReadKeeps
  split
  · split <;> infer_instance
  · infer_instance

instance (d : Desc n) (a : Act n) : Decidable (NullKeeps d a) := by
  unfold NullKeeps
  split
  · split <;> infer_instance
  · infer_instance

instance (d : Desc n) (a : Act n) : Decidable (AcceptKeeps d a) := by
  unfold AcceptKeeps
  split <;> infer_instance

theorem fair_read {d : Desc n} {a : Act n} (h : ReadKeeps d a) :
    ∀ l ∈ label .read d a, Token.Fair (abs .read d) l := by
  intro l hl
  cases l with
  | take q r again =>
    obtain ⟨p, rfl, rfl, ⟨-, buf, len, hpc, rfl, rfl⟩ | ⟨hc, -⟩⟩ := label_take hl
    · simp only [ReadKeeps, hpc] at h
      intro hr
      exact (h hr).imp_left decide_eq_true
    · cases hc
  | _ => trivial

theorem fair_accept {d : Desc n} {a : Act n} (h : AcceptKeeps d a) :
    ∀ l ∈ label .accept d a, Token.Fair (abs .accept d) l := by
  intro l hl
  cases l with
  | take q r again =>
    obtain ⟨p, rfl, rfl, ⟨hc, -⟩ | ⟨-, hpc, rfl, rfl⟩⟩ := label_take hl
    · cases hc
    · exact fun hr => .inr (h hpc hr)
  | _ => trivial

/-- Between its `sem_wait` and the end of its `unlock_sem`. -/
def InRead (pc : ThreadPc) : Prop := threadPhase .read pc ≠ .out

def InAccept (pc : ThreadPc) : Prop := threadPhase .accept pc ≠ .out

instance (pc : ThreadPc) : Decidable (InRead pc) := inferInstanceAs (Decidable (_ ≠ _))

instance (pc : ThreadPc) : Decidable (InAccept pc) := inferInstanceAs (Decidable (_ ≠ _))

theorem drained_of_not_inRead {pc : ThreadPc} (h : ¬ InRead pc) : drained pc = 0 := by
  cases pc with
  | drainCount buf len k => exact absurd (by simp [InRead, threadPhase]) h
  | _ => rfl

/-- The handshake is answered, in-order bytes arrive, the stack thread delivers its events, threads
    call `read()`. -/
def StreamAct : Act n → Prop
  | .event (.synAck _) | .event (.segment _ _) | .stack | .read _ _ _ | .thread _ => True
  | _ => False

/-- Datagrams arrive, the stack thread delivers `EV_RD`, threads call `read()`. -/
def DatagramAct : Act n → Prop
  | .event (.datagram _) | .stack | .read _ _ _ | .thread _ => True
  | _ => False

/-- Connections are established, the stack thread delivers `EV_CONN`, threads call `accept()`. -/
def ListenerAct : Act n → Prop
  | .event (.syn _) | .event (.firstAck _) | .stack | .accept _ | .thread _ => True
  | _ => False

instance : DecidablePred (StreamAct (n := n)) := fun a => by
  unfold StreamAct; split <;> infer_instance

instance : DecidablePred (DatagramAct (n := n)) := fun a => by
  unfold DatagramAct; split <;> infer_instance

instance : DecidablePred (ListenerAct (n := n)) := fun a => by
  unfold ListenerAct; split <;> infer_instance

/-- What a run of reads and segments keeps of a stream descriptor. -/
structure Stream (d : Desc n) : Prop where
  wf : Wf d
  inTable : d.inTable
  proto : d.socket.proto = .tcp
  inTree : d.socket.inTree
  bound : d.socket.bound

theorem stream_step {d d' : Desc n} {a : Act n} (h : Stream d) (ha : StreamAct a)
    (hs : step d a = some d') : Stream d' := by
  have hopen : ∀ b, a ≠ .close b := by
    intro b hb
    rw [hb] at ha
    exact ha
  have hkind : SameKind d.socket d'.socket := by
    cases step_move hs with
    | event e s evs hidle he =>
      cases e with
      | segment f again =>
        simp only [event, Option.map_eq_some_iff, Prod.mk.injEq] at he
        obtain ⟨u, hu, rfl, -⟩ := he
        exact (tcpDataIn_spec h.wf.sound hu).2.1.toSameKind
      | synAck seq =>
        simp only [event, Option.map_eq_some_iff, Prod.mk.injEq] at he
        obtain ⟨u, hu, rfl, -⟩ := he
        exact (tcpSynack_spec h.wf.sound hu).sameKind
      | _ => exact absurd ha id
    | _ => exact sameKind_step h.wf (fun e he => by cases he) hopen hs
  exact ⟨wf_step h.wf hs, (inTable_step h.wf hopen hs).trans h.inTable, hkind.proto.trans h.proto,
    hkind.inTree.trans h.inTree, hkind.bound.trans h.bound⟩

/-- On a stream a read into a buffer that leaves bytes behind posts again. -/
theorem stream_readKeeps {d : Desc n} {a : Act n} (h : Stream d) (hnull : NullKeeps d a) :
    ReadKeeps d a := by
  rw [ReadKeeps.eq_def]
  split
  case h_1 p =>
    rw [NullKeeps] at hnull
    split
    case h_1 buf len hpc =>
      rw [hpc] at hnull
      cases buf with
      | valid =>
        exact fun hl => .inl (readLeaves_readFills h.wf.sound h.inTree h.bound h.proto hl)
      | null =>
        rw [readLeaves_null, readFills_null]
        exact hnull
    case h_2 => trivial
  case h_2 => trivial

/-- Covered and idle: the token is in the semaphore. -/
theorem sem_pos {c : Sem} {d : Desc n} (hc : Token.Covered (abs c d)) (hidle : Idle d.toEntry)
    (hthreads : ∀ p, ¬ threadPhase c (d.thread p) ≠ .out) (hready : Ready c d.socket) :
    1 ≤ d.sem c :=
  hc.value_pos (not_owing hidle fun p => not_not.mp (hthreads p)) hready

/-- STREAM WAKE-UPS: in a run in which every `pico_socket_read` without a buffer finds no bytes, or is
    covered for, `read_sem` is positive whenever bytes are queued and neither a notification nor a
    read is in progress, and the next `read()` returns without waiting. -/
theorem stream_wakeup {s : PicoSocket} (hs : Sound s) (hp : s.proto = .tcp) (ht : s.inTree)
    (hb : s.bound) {evs : List (BitVec 16)} (hevs : hasData s → announces picoSockEvRd evs)
    {as : List (Act n)}
    (hm : Meets step (fun d a => StreamAct a ∧ NullKeeps d a) (registerOwed s evs n) as) {d : Desc n}
    (hr : run step (registerOwed s evs n) as = some d) (hidle : Idle d.toEntry)
    (hreads : ∀ p, ¬ InRead (d.thread p)) (hdata : hasData d.socket) :
    1 ≤ d.sem .read ∧ ∀ p buf len, d.thread p = .away → ∃ m d',
      run step d (.read p buf len :: List.replicate m (.thread p)) = some d' ∧
        d'.thread p = .readDone (picoSocketRead d.socket buf (toInt32 len)).2.1 := by
  have hstart : Stream (registerOwed s evs n) := ⟨wf_registerOwed hs evs, rfl, hp, ht, hb⟩
  have hfair : Meets step (FairOpen .read) (registerOwed s evs n) as :=
    hm.of_invariant (fun _ _ _ hi ha hs => stream_step hi ha.1 hs)
      (fun d a hi ha => ⟨fun b hb => by rw [hb] at ha; exact ha.1,
        fair_read (stream_readKeeps hi ha.2)⟩) hstart
  have hend : Stream d := run_keeps (fun _ _ _ hi ha hs => stream_step hi ha.1 hs) hstart hm hr
  have hcov := covered_run .read hstart.wf rfl (covered_registerOwed .read hevs) hfair hr
  have hpos := sem_pos hcov hidle hreads hdata
  have hnone : ∀ p, drained (d.thread p) = 0 := fun p => drained_of_not_inRead (hreads p)
  have hcount := count_eq_pipe hr hidle hnone
  exact ⟨hpos, fun p buf len haway => read_returns hend.inTable haway hpos hcount.le buf len⟩

/-- Three bytes arrive and are announced, and one `read()` follows. -/
def readAfterThree (buf : Buffer) (len steps : ℕ) : List (Act 1) :=
  .event (.segment (.ofBytes 0 [1, 2, 3]) 0) :: List.replicate 5 .stack ++
    .read 0 buf len :: List.replicate steps (.thread 0)

theorem readNull_runs :
    (run step (register (connectedSocket 0) 1) (readAfterThree .null 0 6)).isSome := by
  decide +kernel

/-- `read(fd, NULL, 0)` takes the token, returns -1, and the bytes stay without one. -/
theorem stream_stranded : ¬ ∀ (as : List (Act 1)) (d : Desc 1), (∀ a ∈ as, StreamAct a) →
    run step (register (connectedSocket 0) 1) as = some d → Idle d.toEntry →
    (∀ p, ¬ InRead (d.thread p)) → hasData d.socket → 1 ≤ d.sem .read := by
  intro h
  have hpos := h (readAfterThree .null 0 6) _ (by decide) (Option.some_get readNull_runs).symm
    (by decide +kernel) (by decide +kernel) (by decide +kernel)
  exact absurd hpos (by decide +kernel)

theorem partialRead_runs :
    (run step (register (connectedSocket 0) 1) (readAfterThree .valid 2 9)).isSome := by
  decide +kernel

/-- A read of two of the bytes posts again. -/
theorem stream_wakeup_partialRead : 1 ≤ (Option.get _ partialRead_runs).sem .read :=
  have hempty : hasData (connectedSocket 0) → announces picoSockEvRd [] :=
    fun h => absurd h (by decide)
  (stream_wakeup (sound_connected 0) rfl rfl rfl hempty (by decide +kernel)
    (Option.some_get partialRead_runs).symm (by decide +kernel) (by decide +kernel)
    (by decide +kernel)).1

/-- A datagram socket that has received nothing yet. -/
structure FreshUdp (s : PicoSocket) : Prop where
  sound : Sound s
  proto : s.proto = .udp
  empty : ¬ hasData s

/-- DATAGRAM WAKE-UPS: none is lost in a run in which every `pico_socket_read` that leaves a datagram
    behind returns its length, or leaves while another party has credit. -/
theorem datagram_wakeup {s : PicoSocket} (hs : FreshUdp s) {as : List (Act n)}
    (hm : Meets step (fun d a => DatagramAct a ∧ ReadKeeps d a) (register s n) as)
    {d : Desc n} (hr : run step (register s n) as = some d) (hidle : Idle d.toEntry)
    (hreads : ∀ p, ¬ InRead (d.thread p)) (hdata : hasData d.socket) : 1 ≤ d.sem .read := by
  have hfair : Meets step (FairOpen .read) (register s n) as :=
    hm.mono fun d a ⟨ha, hk⟩ => ⟨fun b hb => by rw [hb] at ha; exact ha, fair_read hk⟩
  have hcov := covered_run .read (wf_register hs.sound) rfl (covered_register .read hs.empty) hfair hr
  exact sem_pos hcov hidle hreads hdata

/-- A datagram of `k` bytes. -/
def datagram (k : ℕ) (h : k < 2 ^ 16) : PicoFrame where
  bufferLen := k + 42
  transport := List.replicate k 7
  payload := []
  transport_lt := by rwa [List.length_replicate]
  payload_lt := Nat.two_pow_pos 16

/-- Two datagrams arrive and are announced; one `read()` with a larger buffer takes the first. -/
def burst (len : ℕ) : List (Act 1) :=
  .event (.datagram (datagram 4 (by decide))) :: List.replicate 5 .stack ++
    .event (.datagram (datagram 4 (by decide))) :: List.replicate 5 .stack ++
    .read 0 .valid len :: List.replicate 6 (.thread 0)

theorem burst_runs :
    (run step (register (picoSocketBind (picoSocketOpen .udp)) 1) (burst 100)).isSome := by
  decide +kernel

/-- The read of 100 bytes gets 4, does not post, and the second datagram stays without a token. -/
theorem datagram_stranded : ¬ ∀ (as : List (Act 1)) (d : Desc 1), (∀ a ∈ as, DatagramAct a) →
    run step (register (picoSocketBind (picoSocketOpen .udp)) 1) as = some d → Idle d.toEntry →
    (∀ p, ¬ InRead (d.thread p)) → hasData d.socket → 1 ≤ d.sem .read := by
  intro h
  have hpos := h (burst 100) _ (by decide) (Option.some_get burst_runs).symm (by decide +kernel)
    (by decide +kernel) (by decide +kernel)
  exact absurd hpos (by decide +kernel)

theorem burst_runs_exact :
    (run step (register (picoSocketBind (picoSocketOpen .udp)) 1)
      (burst 4 ++ List.replicate 2 (.thread 0))).isSome := by
  decide +kernel

/-- A read of exactly 4 bytes posts again. -/
theorem datagram_wakeup_burst : 1 ≤ (Option.get _ burst_runs_exact).sem .read :=
  datagram_wakeup ⟨sound_open .udp, rfl, by decide⟩ (by decide +kernel)
    (Option.some_get burst_runs_exact).symm (by decide +kernel) (by decide +kernel)
    (by decide +kernel)

/-- A listening socket without a connection. -/
structure FreshListener (s : PicoSocket) : Prop where
  sound : Sound s
  proto : s.proto = .tcp
  listen : s.state = .listen
  empty : ¬ hasChild s

/-- PENDING CONNECTIONS: none is stranded in a run in which every `pico_socket_accept` that leaves
    one behind leaves while another party has credit. -/
theorem accept_wakeup {s : PicoSocket} (hs : FreshListener s) {as : List (Act n)}
    (hm : Meets step (fun d a => ListenerAct a ∧ AcceptKeeps d a) (register s n) as)
    {d : Desc n} (hr : run step (register s n) as = some d) (hidle : Idle d.toEntry)
    (haccepts : ∀ p, ¬ InAccept (d.thread p)) (hchild : hasChild d.socket) : 1 ≤ d.sem .accept := by
  have hfair : Meets step (FairOpen .accept) (register s n) as :=
    hm.mono fun d a ⟨ha, hk⟩ => ⟨fun b hb => by rw [hb] at ha; exact ha, fair_accept hk⟩
  have hcov := covered_run .accept (wf_register hs.sound) rfl (covered_register .accept hs.empty)
    hfair hr
  exact sem_pos hcov hidle haccepts hchild

/-- `listen(fd, 5)` on a bound stream socket. -/
def listener : PicoSocket := picoSocketListen (picoSocketBind (picoSocketOpen .tcp)) 5

/-- The handshake of a peer and the delivery of its `EV_CONN`. -/
def establish (remote : ℕ) : List (Act 1) :=
  [.event (.syn remote), .event (.firstAck remote), .stack, .stack, .stack]

/-- `accept()` from its call to its return. -/
def acceptOne : List (Act 1) := [.accept 0, .thread 0, .thread 0, .thread 0]

theorem establish_runs :
    (run step (register listener 1) (establish 1 ++ establish 2 ++ acceptOne)).isSome := by
  decide +kernel

/-- Two connections, one `accept()`: the second connection stays without a token. -/
theorem connection_stranded : ¬ ∀ (as : List (Act 1)) (d : Desc 1), (∀ a ∈ as, ListenerAct a) →
    run step (register listener 1) as = some d → Idle d.toEntry →
    (∀ p, ¬ InAccept (d.thread p)) → hasChild d.socket → 1 ≤ d.sem .accept := by
  intro h
  have hpos := h _ _ (by decide) (Option.some_get establish_runs).symm (by decide +kernel)
    (by decide +kernel) (by decide +kernel)
  exact absurd hpos (by decide +kernel)

theorem establish_runs_apart :
    (run step (register listener 1) (establish 1 ++ acceptOne ++ establish 2)).isSome := by
  decide +kernel

/-- A connection that is established after the accept is announced. -/
theorem accept_wakeup_apart : 1 ≤ (Option.get _ establish_runs_apart).sem .accept :=
  accept_wakeup ⟨sound_listen 5, rfl, rfl, by decide⟩ (by decide +kernel)
    (Option.some_get establish_runs_apart).symm (by decide +kernel) (by decide +kernel)
    (by decide +kernel)

end FdPicotcp.Wakeups
