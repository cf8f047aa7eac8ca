import FdPicotcp.Wrapper.Drain

/-! A `read()` that fails.

    The token and the characters in the pipe are taken before `pico_socket_read` is asked, and
    nothing puts them back. A call that runs alone therefore ends with an empty pipe, whatever it
    returns (`Progress`), and a failure that leaves data on the socket leaves it unannounced. -/

namespace FdPicotcp.FailedRead
open Transition CInt Socket TcpQueue UdpQueue Elem Descriptor Drain

/-- `pico_socket_read` refuses the buffer, the length, or the socket, while data is queued. -/
def Refused (s : PicoSocket) (buf : Buffer) (len : ℤ) : Prop :=
  hasData s ∧ (buf = .null ∨ ¬ s.inTree ∨ ¬ s.bound ∨ (s.proto = .udp ∧ 0xFFFF < len))

instance (s : PicoSocket) (buf : Buffer) (len : ℤ) : Decidable (Refused s buf len) :=
  inferInstanceAs (Decidable (_ ∧ _))

/-- A stream read is not refused while bytes are queued. -/
theorem picoSocketTcpRead_refused {s : PicoSocket} (h : Sound s) (hp : s.proto = .tcp) (len : ℤ) :
    ¬ ((picoSocketTcpRead s len).2.1 = -1 ∧ hasData (picoSocketTcpRead s len).1) := by
  obtain ⟨e, hin, -⟩ := h.inOrder
  rintro ⟨hret, hdata⟩
  by_cases hshut : s.shutRemote ∧ s.tcp.tcpqIn.frames = 0
  · rw [picoSocketTcpRead, if_pos hshut, hasData_tcp hp] at hdata
    exact hdata (frames_eq_zero hin hshut.2)
  · obtain ⟨u, hread, -⟩ := picoSocketTcpRead_eq len hin hshut
    have hle := unread_length_le s.tcp
    have hlt := hin.total_lt
    rw [hread] at hret
    simp only at hret
    rw [toInt32_of_range (by omega) (by omega)] at hret
    omega

/-- A datagram read is refused for its length alone. -/
theorem picoSocketUdpRead_refused (s : PicoSocket) (len : ℤ) :
    (picoSocketUdpRead s len).2.1 = -1 ∧ hasData (picoSocketUdpRead s len).1 ↔
      hasData s ∧ 0xFFFF < len := by
  rw [picoSocketUdpRead]
  by_cases hbig : 0xFFFF < len
  · rw [if_pos hbig]
    simp [hbig]
  · rw [if_neg hbig]
    refine iff_of_false ?_ fun h => hbig h.2
    rintro ⟨hret, -⟩
    simp only at hret
    omega

/-- FAILURE: -1 with data still queued is a refusal. -/
theorem picoSocketRead_refused {s : PicoSocket} (h : Sound s) (buf : Buffer) (len : ℤ) :
    (picoSocketRead s buf len).2.1 = -1 ∧ hasData (picoSocketRead s buf len).1 ↔
      Refused s buf len := by
  rw [Refused]
  by_cases hreg : buf = .null ∨ ¬ s.inTree ∨ ¬ s.bound
  · rw [picoSocketRead_unserved hreg]
    rcases hreg with hbuf | ht | hb
    · simp [hbuf]
    · simp [ht]
    · simp [hb]
  · rw [picoSocketRead_served hreg]
    obtain ⟨hbuf, hreg⟩ := not_or.mp hreg
    obtain ⟨ht, hb⟩ := not_or.mp hreg
    cases hp : s.proto with
    | tcp =>
      refine iff_of_false (picoSocketTcpRead_refused h hp len) ?_
      simp only [hbuf, ht, hb, reduceCtorEq, false_and, or_false, and_false, not_false_eq_true]
    | udp =>
      simp only [hbuf, ht, hb, true_and, false_or]
      exact picoSocketUdpRead_refused s len

variable {n : ℕ}

/-- Where a call that runs alone from `d` is. -/
def Progress (d : Desc n) (p : Fin n) (buf : Buffer) (len : ℤ) (u : Desc n) : Prop :=
  match u.thread p with
  | .readWait b l | .drainTest b l | .drainRead b l =>
    b = buf ∧ l = len ∧ u.socket = d.socket ∧ u.fdWriteCount = u.pipe
  | .drainCount b l k => b = buf ∧ l = len ∧ u.socket = d.socket ∧ u.fdWriteCount = u.pipe + k
  | .sockRead b l => b = buf ∧ l = len ∧ u.socket = d.socket ∧ u.pipe = 0
  | .readUnlock ret | .readPost ret _ | .readDone ret =>
    u.socket = (picoSocketRead d.socket buf len).1 ∧
      ret = (picoSocketRead d.socket buf len).2.1 ∧ u.pipe = 0
  | .away => True
  | .acceptWait | .sockAccept | .acceptDone _ => False

theorem progress_threadStep {d u u' : Desc n} {p : Fin n} {buf : Buffer} {len : ℤ}
    (h : Progress d p buf len u) (hs : threadStep u p = some u') : Progress d p buf len u' := by
  obtain ⟨pc, hpc, hm⟩ := threadStep_move hs
  rw [Progress, hpc] at h
  cases hm with
  | readWait b l hpos =>
    simp only [Progress, Desc.goto, Function.update_self]
    exact h
  | drainTest b l =>
    obtain ⟨hb, hl, hsock, hcount⟩ := h
    by_cases hpos : 0 < u.fdWriteCount
    · simp only [Progress, Desc.goto, Function.update_self, if_pos hpos]
      exact ⟨hb, hl, hsock, hcount⟩
    · simp only [Progress, Desc.goto, Function.update_self, if_neg hpos]
      exact ⟨hb, hl, hsock, by omega⟩
  | drainRead b l hpos =>
    obtain ⟨hb, hl, hsock, hcount⟩ := h
    simp only [Progress, Desc.goto, Function.update_self]
    exact ⟨hb, hl, hsock, by omega⟩
  | drainCount b l k =>
    obtain ⟨hb, hl, hsock, hcount⟩ := h
    simp only [Progress, Desc.goto, Function.update_self]
    exact ⟨hb, hl, hsock, by omega⟩
  | sockRead b l =>
    obtain ⟨rfl, rfl, hsock, hpipe⟩ := h
    rw [hsock]
    by_cases hfill : l = (picoSocketRead d.socket b l).2.1
    · simp only [Progress, Desc.goto, Function.update_self, if_pos hfill]
      exact ⟨trivial, trivial, hpipe⟩
    · simp only [Progress, Desc.goto, Function.update_self, if_neg hfill]
      exact ⟨trivial, trivial, hpipe⟩
  | readUnlock ret | readPost ret v =>
    simp only [Progress, Desc.goto, Function.update_self]
    exact h
  | readDone ret => simp [Progress]
  | acceptWait | sockAccept | acceptDone => exact absurd h id

/-- `read(fd, b, len)` by a thread while nothing else moves, up to its return value. -/
def Returns (d : Desc n) (p : Fin n) (buf : Buffer) (len : ℕ) (ret : ℤ) (d' : Desc n) : Prop :=
  ∃ m, run step d (.read p buf len :: List.replicate m (.thread p)) = some d' ∧
    d'.thread p = .readDone ret

/-- RUN: what the call returns is what `pico_socket_read` gives, and the pipe is empty then. -/
theorem returns_spec {d d' : Desc n} {p : Fin n} {buf : Buffer} {len : ℕ} {ret : ℤ}
    (hcount : d.fdWriteCount = d.pipe) (h : Returns d p buf len ret d') :
    d'.socket = (picoSocketRead d.socket buf (toInt32 len)).1 ∧
      ret = (picoSocketRead d.socket buf (toInt32 len)).2.1 ∧ d'.pipe = 0 := by
  obtain ⟨m, hrun, hdone⟩ := h
  obtain ⟨u, hu, hrest⟩ := run_cons.mp hrun
  have hstart : Progress d p buf (toInt32 len) u := by
    cases step_move hu with
    | read _ _ _ hin haway =>
      simp only [Progress, Desc.goto, Function.update_self]
      exact ⟨trivial, trivial, trivial, hcount⟩
  have honly : Meets step (fun _ a => a = .thread p) u (List.replicate m (.thread p)) :=
    meets_of_forall (P := (· = Act.thread p)) fun _ ha => List.eq_of_mem_replicate ha
  have hend : Progress d p buf (toInt32 len) d' := by
    refine run_keeps ?_ hstart honly hrest
    rintro v _ v' hv rfl hs
    exact progress_threadStep hv hs
  rw [Progress, hdone] at hend
  exact hend

/-- A failure with data on the socket leaves a token and a character for it. -/
def KeepsWakeup (ret : ℤ) (d' : Desc n) : Prop :=
  ret = -1 → hasData d'.socket → 1 ≤ d'.sem .read ∧ 1 ≤ d'.pipe

/-- A FAILED READ COSTS NO WAKE-UP exactly if `pico_socket_read` does not refuse it while data is
    queued, from every state of a run in which no callback and no other drain is under way. -/
theorem wakeup_kept_iff {s : PicoSocket} {evs : List (BitVec 16)} {as : List (Act n)} {d d' : Desc n}
    {p : Fin n} {buf : Buffer} {len : ℕ} {ret : ℤ} (hs : Sound s)
    (hr : run step (registerOwed s evs n) as = some d) (hidle : Idle d.toEntry)
    (hnone : ∀ q, drained (d.thread q) = 0) (hret : Returns d p buf len ret d') :
    KeepsWakeup ret d' ↔ ¬ Refused d.socket buf (toInt32 len) := by
  have hwf : Wf d := run_invariant (fun _ _ _ hi hs => wf_step hi hs) (wf_registerOwed hs evs) hr
  obtain ⟨hsock, hval, hpipe⟩ := returns_spec (count_eq_pipe hr hidle hnone) hret
  rw [← picoSocketRead_refused hwf.sound, KeepsWakeup, hsock, hval, hpipe]
  constructor
  · rintro hkeeps ⟨hfail, hdata⟩
    exact absurd (hkeeps hfail hdata).2 (by decide)
  · exact fun hno hfail hdata => absurd ⟨hfail, hdata⟩ hno

/-- The datagram "hi". -/
def hi : PicoFrame := ⟨50, [104, 105], [], by decide, by decide⟩

/-- It arrives at a bound socket and is announced. -/
def hiArrives : List (Act 1) := .event (.datagram hi) :: List.replicate 5 .stack

def boundUdp : Desc 1 := registerOwed (picoSocketBind (picoSocketOpen .udp)) [] 1

theorem hiArrives_runs : (run step boundUdp hiArrives).isSome := by decide +kernel

/-- The descriptor with the datagram announced, and after a read of `len` bytes that runs alone. -/
def hiQueued : Desc 1 := Option.get _ hiArrives_runs

def readAlone (len : ℕ) : Option (Desc 1) :=
  run step hiQueued (.read 0 .valid len :: List.replicate 6 (.thread 0))

theorem readAlone_runs : (readAlone 5).isSome ∧ (readAlone 70000).isSome := by decide +kernel

theorem wakeup_kept_hi : KeepsWakeup 2 ((readAlone 5).get readAlone_runs.1) ↔
    ¬ Refused hiQueued.socket .valid (toInt32 (5 : ℕ)) :=
  wakeup_kept_iff (sound_open .udp) (Option.some_get hiArrives_runs).symm (by decide +kernel)
    (by decide +kernel) ⟨6, (Option.some_get readAlone_runs.1).symm, by decide +kernel⟩

/-- A length that the stack refuses: "hi" stays queued, and neither the semaphore nor the pipe says
    so. -/
theorem wakeup_lost : ¬ ∀ (s : PicoSocket) (as : List (Act 1)) (d d' : Desc 1) (buf : Buffer)
    (len : ℕ) (ret : ℤ), Sound s → run step (registerOwed s [] 1) as = some d → Idle d.toEntry →
    (∀ q, d.thread q = .away) → Returns d 0 buf len ret d' → KeepsWakeup ret d' := by
  intro h
  have hkeeps := h _ hiArrives hiQueued ((readAlone 70000).get readAlone_runs.2) .valid 70000
    (-1) (sound_open .udp) (Option.some_get hiArrives_runs).symm (by decide +kernel) (by decide +kernel)
    ⟨6, (Option.some_get readAlone_runs.2).symm, by decide +kernel⟩ rfl (by decide +kernel)
  exact absurd hkeeps.1 (by decide +kernel)

end FdPicotcp.FailedRead
