import FdPicotcp.Lib.Transition
import FdPicotcp.Stack.TcpQueue

/-! The output queue of a picoTCP stream socket, and `write()` into it.

    `write()` narrows its count to an `int` and `pico_socket_xmit` cuts the buffer into chunks of at
    most one segment; `pico_tcp_push` appends a chunk to `tcpq_out` at `snd_last + 1`, or refuses it.
    Acknowledgements take frames off the front, `tcp_split_segment` takes the front half out of a frame
    anywhere near the head. What is queued stays in order, and every chunk goes to its end. -/

namespace FdPicotcp.TcpOutput
open Transition CInt TcpQueue

/-- `struct pico_frame` with data to send; `buffer_len` counts all its headers too. -/
structure PicoFrame where
  seq : BitVec 32
  payload : List UInt8
  bufferLen : ℕ
  deriving DecidableEq, Repr

/-- `tcpq_out`: its `size` counts whole buffers. -/
structure OutQueue where
  pool : List PicoFrame
  maxSize : ℕ
  size : ℕ
  frames : ℕ
  deriving DecidableEq, Repr

/-- The output side of `struct pico_socket_tcp`. `hasDev` says that a device is found for the remote
    address. `pico_tcp_open` disables Nagle's algorithm and nothing enables it. -/
structure OutSocket where
  isIpv6 : Bool
  inTree : Bool
  bound : Bool
  connected : Bool
  shutLocal : Bool
  remotePort : ℕ
  hasDev : Bool
  mss : ℕ
  tsOk : Bool
  sndLast : BitVec 32
  tcpqOut : OutQueue
  deriving DecidableEq, Repr

/-- Which allocations succeed: the frame, and the node of the tree. -/
structure Alloc where
  frame : Bool
  node : Bool
  deriving DecidableEq, Repr

/-- `PICO_SIZE_TCPHDR` -/
def picoSizeTcphdr : ℕ := 20

/-- `PICO_SIZE_ETHHDR` -/
def picoSizeEthhdr : ℕ := 14

/-- `PICO_SIZE_IP4HDR`, `PICO_SIZE_IP6HDR` -/
def picoSizeIphdr (s : OutSocket) : ℕ := if s.isIpv6 then 40 else 20

/-- `PICO_DEVICE_DEFAULT_MTU`, which no device of the library changes. -/
def picoDeviceDefaultMtu : ℕ := 1500

/-- `PICO_MIN_MSS` -/
def picoMinMss : ℕ := 1280

/-- `pico_socket_get_mss`: the MTU of the device without the IP header. -/
def picoSocketGetMss (s : OutSocket) : ℕ :=
  (if s.hasDev then picoDeviceDefaultMtu else picoMinMss) - picoSizeIphdr s

/-- `pico_tcp_get_socket_mss`: what the handshake has agreed on, if anything. -/
def picoTcpGetSocketMss (s : OutSocket) : ℕ :=
  toUint16 (if 0 < s.mss then s.mss + picoSizeTcphdr else picoSocketGetMss s : ℕ)

/-- `tcp_options_size` of a data packet: window scale, timestamp and end, 32-bit aligned. -/
def tcpOptionsSize (s : OutSocket) : ℕ :=
  let size := 3 + (if s.tsOk then 10 else 0) + 1
  (size + 3) / 4 * 4

/-- `pico_tcp_overhead` -/
def picoTcpOverhead (s : OutSocket) : ℕ := picoSizeTcphdr + tcpOptionsSize s

/-- `pico_socket_xmit_avail_space`: the payload of a full frame. -/
def picoSocketXmitAvailSpace (s : OutSocket) : ℤ := picoTcpGetSocketMss s - picoTcpOverhead s

/-- `peek_segment` of an output queue. -/
def peekFrame (tq : OutQueue) (seq : BitVec 32) : Option PicoFrame :=
  findSeq PicoFrame.seq tq.pool seq

/-- `pico_tree_insert` of `tcpq_out`, whose order is `segment_compare`. -/
def treeInsert (f : PicoFrame) (pool : List PicoFrame) : List PicoFrame :=
  insertSeq PicoFrame.seq f pool

def enqueueSegmentLen (f : PicoFrame) : ℕ := toUint16 f.bufferLen

/-- `do_enqueue_segment`: 0 where the queue is full, has the number already or gets no node. -/
def doEnqueueSegment (tq : OutQueue) (f : PicoFrame) (node : Bool) : ℤ × OutQueue :=
  if tq.maxSize < tq.size + enqueueSegmentLen f then (0, tq)
  else if (peekFrame tq f.seq).isSome ∨ ¬ node then (0, tq)
  else
    (enqueueSegmentLen f, { tq with
      pool := treeInsert f tq.pool
      size := tq.size + enqueueSegmentLen f
      frames := tq.frames + 1 })

/-- `pico_enqueue_segment`: an empty frame is refused. -/
def picoEnqueueSegment (tq : OutQueue) (f : PicoFrame) (node : Bool) : ℤ × OutQueue :=
  if enqueueSegmentLen f = 0 then (-1, tq) else doEnqueueSegment tq f node

/-- `pico_discard_segment` -/
def picoDiscardSegment (tq : OutQueue) (f : PicoFrame) : OutQueue :=
  if (peekFrame tq f.seq).isSome then
    { tq with
      pool := tq.pool.eraseP fun g => picoSeqCompare g.seq f.seq = 0
      size := tq.size - enqueueSegmentLen f
      frames := tq.frames - 1 }
  else tq

/-- `pico_tcp_push` without Nagle's algorithm. -/
def picoTcpPush (s : OutSocket) (f : PicoFrame) (node : Bool) : OutSocket × ℤ :=
  let f := { f with seq := s.sndLast + 1 }
  let (ret, q) := picoEnqueueSegment s.tcpqOut f node
  if 0 < ret then
    ({ s with tcpqOut := q, sndLast := s.sndLast + BitVec.ofNat 32 f.payload.length }, f.payload.length)
  else (s, 0)

/-- The buffer that `pico_socket_frame_alloc` allocates for so much of the transport layer. -/
def frameBufferLen (s : OutSocket) (len : ℕ) : ℕ := len + picoSizeIphdr s + picoSizeEthhdr

/-- `pico_socket_xmit_one`. A frame without payload is discarded although it is in the queue. -/
def picoSocketXmitOne (s : OutSocket) (buf : List UInt8) (len : ℤ) (alloc : Alloc) : OutSocket × ℤ :=
  if ¬ alloc.frame then (s, -1)
  else
    let f : PicoFrame :=
      ⟨0, buf.take (toUint16 len), frameBufferLen s (toUint16 (len + picoTcpOverhead s))⟩
    picoTcpPush s f alloc.node

/-- The loop of `pico_socket_xmit`: the socket and `total_payload_written`. A turn that does not end
    it writes at least one byte, so `len` bounds the turns. `alloc` is indexed by the bytes written. -/
def picoSocketXmitLoop (space : ℤ) (buf : List UInt8) (len : ℤ) (alloc : ℕ → Alloc) :
    ℕ → OutSocket → ℕ → OutSocket × ℕ
  | 0, s, total => (s, total)
  | n + 1, s, total =>
    if (total : ℤ) < len then
      let chunkLen := min (len - total) space
      let (s, w) := picoSocketXmitOne s (buf.drop total) chunkLen (alloc total)
      if w ≤ 0 then (s, total) else picoSocketXmitLoop space buf len alloc n s (total + w.toNat)
    else (s, total)

/-- `pico_socket_xmit`: one frame if the bytes fit into it, a chunk for each frame otherwise. -/
def picoSocketXmit (s : OutSocket) (buf : List UInt8) (len : ℤ) (alloc : ℕ → Alloc) :
    OutSocket × ℤ :=
  let space := picoSocketXmitAvailSpace s
  if space < 0 then (s, -1)
  else
    let (s, total) := picoSocketXmitLoop space buf len alloc len.toNat s 0
    (s, total)

/-- `pico_socket_sendto` with the endpoint the socket is connected to. -/
def picoSocketSendto (s : OutSocket) (buf : List UInt8) (len : ℤ) (alloc : ℕ → Alloc) :
    OutSocket × ℤ :=
  if len = 0 then (s, 0)
  else if len < 0 ∨ s.remotePort = 0 then (s, -1)
  else picoSocketXmit s buf len alloc

/-- `pico_socket_write_check_state` -/
def picoSocketWriteCheckState (s : OutSocket) : ℤ :=
  if ¬ s.bound then -1
  else if ¬ s.connected then -1
  else if s.shutLocal then -1
  else 0

/-- `pico_socket_write` -/
def picoSocketWrite (s : OutSocket) (buf : List UInt8) (len : ℤ) (alloc : ℕ → Alloc) :
    OutSocket × ℤ :=
  if ¬ s.inTree then (s, -1)
  else if picoSocketWriteCheckState s < 0 then (s, -1)
  else picoSocketSendto s buf len alloc

/-- `write(fd, buf, count)` with `count` the length of `buf`; `fd_pico_socket_write` takes an `int`. -/
def write (s : OutSocket) (buf : List UInt8) (alloc : ℕ → Alloc) : OutSocket × ℤ :=
  picoSocketWrite s buf (toInt32 buf.length) alloc

/-- The loop of `release_all_until` over the frames in tree order. -/
def releaseAllUntil (seq : BitVec 32) : List PicoFrame → OutQueue → OutQueue
  | [], q => q
  | f :: fs, q =>
    if picoSeqCompare (adv f.seq f.payload.length) seq ≤ 0 then
      releaseAllUntil seq fs (picoDiscardSegment q f)
    else q

/-- `tcp_split_segment`: the second part goes back into the queue, the first is sent at once. -/
def tcpSplitSegment (s : OutSocket) (f : PicoFrame) (size : ℕ) (alloc : Alloc) : OutSocket :=
  if f.payload.length ≤ size ∨ ¬ alloc.frame then s
  else
    let f2 : PicoFrame := ⟨adv f.seq size, f.payload.drop size,
      frameBufferLen s (f.payload.length - size + picoTcpOverhead s)⟩
    { s with tcpqOut := (picoEnqueueSegment (picoDiscardSegment s.tcpqOut f) f2 alloc.node).2 }

/-- A turn of `pico_tcp_output` for the frame at `seq`: what it does to the queue, where a frame that
    is sent keeps its number. `window` is `recv_wnd << recv_wnd_scale`. -/
def picoTcpOutputTurn (s : OutSocket) (seq : BitVec 32) (window : ℕ) (alloc : Alloc) : OutSocket :=
  match s.tcpqOut.pool.head?, peekFrame s.tcpqOut seq with
  | some una, some f =>
    let seqDiff := picoSeqCompare f.seq una.seq
    if seqDiff < 0 then s
    else if window ≤ toUint32 seqDiff then s
    else if window < toUint32 (seqDiff + f.payload.length) then
      tcpSplitSegment s f (toUint16 window) alloc
    else s
  | _, _ => s

/-- A `write()`, or a step of the stack. -/
inductive Act where
  | write (buf : List UInt8) (alloc : ℕ → Alloc)
  /-- an acknowledgement of the bytes before `ackn` -/
  | ack (ackn : BitVec 32)
  | output (seq : BitVec 32) (window : ℕ) (alloc : Alloc)
  /-- `tcp_parse_option_mss` and `tcp_parse_option_timestamp` -/
  | optionMss (mss : ℕ)
  | optionTimestamp
  /-- `pico_tcp_initconn` again, when the SYN was not answered -/
  | initconn (sndNxt : BitVec 32)
  /-- `tcp_discard_all_segments` -/
  | discardAll
  /-- the bits of `state` change: shutdown, close, deletion -/
  | state (inTree bound connected shutLocal : Bool)

/-- The socket after a step; what `write()` returns is left to `write`. -/
def step (s : OutSocket) : Act → Option OutSocket
  | .write buf alloc => some (write s buf alloc).1
  | .ack ackn => some { s with tcpqOut := releaseAllUntil ackn s.tcpqOut.pool s.tcpqOut }
  | .output seq window alloc => some (picoTcpOutputTurn s seq window alloc)
  | .optionMss mss => some { s with mss := min s.mss mss }
  | .optionTimestamp => some { s with tsOk := true }
  | .initconn sndNxt =>
    some { s with sndLast := sndNxt, mss := toUint16 (picoSocketGetMss s - picoSizeTcphdr) }
  | .discardAll => some { s with tcpqOut := { s.tcpqOut with pool := [], size := 0, frames := 0 } }
  | .state inTree bound connected shutLocal => some { s with inTree, bound, connected, shutLocal }

/-- `pico_tcp_initconn` or `tcp_syn` of a new connection. -/
def begin (isIpv6 hasDev : Bool) (remotePort : ℕ) (sndNxt : BitVec 32) : OutSocket :=
  let s : OutSocket := ⟨isIpv6, true, true, true, false, remotePort, hasDev, 0, false, sndNxt,
    ⟨[], 16 * 1024, 0, 0⟩⟩
  { s with mss := toUint16 (picoSocketGetMss s - picoSizeTcphdr) }

/-- The bytes that wait to be sent or acknowledged. -/
def waiting (s : OutSocket) : List UInt8 := s.tcpqOut.pool.flatMap (·.payload)

/-- What `write()` is to answer: -1 and nothing happens, or the first `n` bytes are appended. -/
def Reports (s : OutSocket) (buf : List UInt8) (r : OutSocket × ℤ) : Prop :=
  r = (s, -1) ∨ 1 ≤ r.2 ∧ r.2 ≤ buf.length ∧ waiting r.1 = waiting s ++ buf.take r.2.toNat

/-! The order of the queue -/

/-- A hole in front of position `j`, where the frame before ends at `k`: only before `b`. -/
def Hole (b k j : ℕ) : Prop := k = j ∨ k < j ∧ j ≤ b

/-- Frames with data, counted from `a`: from position `k` to position `m`, with holes before `b`. -/
def Laid (b : ℕ) (a : BitVec 32) : ℕ → List PicoFrame → ℕ → Prop
  | k, [], m => Hole b k m
  | k, f :: fs, m => ∃ j, Hole b k j ∧ f.seq = adv a j ∧ 0 < f.payload.length ∧
    Laid b a (j + f.payload.length) fs m

/-- The bytes that wait in the queue. -/
def payloadTotal (pool : List PicoFrame) : ℕ := (pool.map (·.payload.length)).sum

theorem Hole.le {b k j : ℕ} (h : Hole b k j) : k ≤ j := by
  rcases h with h | h <;> omega

theorem Laid.start_le {b : ℕ} {a : BitVec 32} :
    ∀ {fs : List PicoFrame} {k m : ℕ}, Laid b a k fs m → k ≤ m
  | [], _, _, h => h.le
  | _ :: _, _, _, ⟨_, hole, _, _, htail⟩ => by
    have hj := hole.le
    have hm := htail.start_le
    omega

/-- A frame lies between its neighbours. -/
theorem Laid.mem {b : ℕ} {a : BitVec 32} : ∀ {fs : List PicoFrame} {k m : ℕ}, Laid b a k fs m →
    ∀ f ∈ fs, ∃ j, k ≤ j ∧ f.seq = adv a j ∧ 0 < f.payload.length ∧ j + f.payload.length ≤ m
  | g :: gs, k, m, ⟨j, hole, hseq, hpos, htail⟩, f, hf => by
    have hj := hole.le
    rcases List.mem_cons.mp hf with rfl | hf
    · exact ⟨j, hj, hseq, hpos, htail.start_le⟩
    · obtain ⟨i, hi, hf⟩ := htail.mem f hf
      exact ⟨i, by omega, hf⟩

/-- Behind the last hole there are only bytes. -/
theorem Laid.end_le {b : ℕ} {a : BitVec 32} :
    ∀ {fs : List PicoFrame} {k m : ℕ}, Laid b a k fs m → m ≤ max k b + payloadTotal fs
  | [], k, m, h => by
    rcases h with h | h
    · rw [← h]
      exact (le_max_left k b).trans (Nat.le_add_right _ _)
    · exact h.2.trans ((le_max_right k b).trans (Nat.le_add_right _ _))
  | f :: fs, k, m, ⟨j, hole, _, _, htail⟩ => by
    have hm := htail.end_le
    have hj : j ≤ max k b := by
      rcases hole with h | h
      · exact h ▸ le_max_left k b
      · exact h.2.trans (le_max_right k b)
    have htotal : payloadTotal (f :: fs) = f.payload.length + payloadTotal fs := rfl
    omega

/-- A hole in front may grow, below `b`. -/
theorem Laid.lower {b : ℕ} {a : BitVec 32} {fs : List PicoFrame} {k k' m : ℕ} (h : Laid b a k fs m)
    (hk : k' ≤ k) (hb : k ≤ b) : Laid b a k' fs m := by
  have hhole : ∀ j, Hole b k j → Hole b k' j := by
    rintro j (rfl | ⟨hlt, hle⟩)
    · rcases hk.eq_or_lt with rfl | hlt
      · exact .inl rfl
      · exact .inr ⟨hlt, hb⟩
    · exact .inr ⟨by omega, hle⟩
  cases fs with
  | nil => exact hhole m h
  | cons f fs =>
    obtain ⟨j, hole, hrest⟩ := h
    exact ⟨j, hhole j hole, hrest⟩

/-- The same frames counted from `c` bytes further on. -/
theorem Laid.shift {b : ℕ} {a : BitVec 32} (c : ℕ) : ∀ {fs : List PicoFrame} {k m : ℕ},
    Laid b a (c + k) fs (c + m) → Laid b (adv a c) k fs m
  | [], k, m, h => by
    rcases h with h | h
    · exact .inl (by omega)
    · exact .inr ⟨by omega, by omega⟩
  | f :: fs, k, m, ⟨j, hole, hseq, hpos, htail⟩ => by
    have hj := hole.le
    obtain ⟨i, rfl⟩ := Nat.exists_eq_add_of_le (show c ≤ j by omega)
    refine ⟨i, ?_, by rw [hseq, adv_adv], hpos, Laid.shift c (by rw [← Nat.add_assoc]; exact htail)⟩
    rcases hole with h | h
    · exact .inl (by omega)
    · exact .inr ⟨by omega, by omega⟩

theorem Laid.append {b : ℕ} {a : BitVec 32} {f : PicoFrame} (hpos : 0 < f.payload.length) :
    ∀ {fs : List PicoFrame} {k m : ℕ}, Laid b a k fs m → f.seq = adv a m →
      Laid b a k (fs ++ [f]) (m + f.payload.length)
  | [], _, m, h, hseq => ⟨m, h, hseq, hpos, .inl rfl⟩
  | _ :: _, _, _, ⟨j, hole, hg, hgpos, htail⟩, hseq => ⟨j, hole, hg, hgpos, htail.append hpos hseq⟩

/-- All frames lie before the end of the queue. -/
theorem Laid.compare_end {b : ℕ} {a : BitVec 32} {fs : List PicoFrame} {k m : ℕ}
    (h : Laid b a k fs m) (hm : m < 2 ^ 31) {f : PicoFrame} (hf : f ∈ fs) :
    0 < picoSeqCompare (adv a m) f.seq ∧ picoSeqCompare f.seq (adv a m) < 0 := by
  obtain ⟨j, -, hseq, hpos, hend⟩ := h.mem f hf
  rw [hseq, picoSeqCompare_adv a (by omega) (by omega), picoSeqCompare_adv a (by omega) (by omega)]
  omega

/-- A frame for the end of the queue is appended if it fits. -/
theorem picoEnqueueSegment_end {b : ℕ} {a : BitVec 32} {tq : OutQueue} {f : PicoFrame} {k m : ℕ}
    (h : Laid b a k tq.pool m) (hm : m < 2 ^ 31) (hseq : f.seq = adv a m)
    (hlen : 0 < enqueueSegmentLen f) (node : Bool) :
    picoEnqueueSegment tq f node =
      if tq.size + enqueueSegmentLen f ≤ tq.maxSize ∧ node then
        ((enqueueSegmentLen f : ℤ), { tq with
          pool := tq.pool ++ [f]
          size := tq.size + enqueueSegmentLen f
          frames := tq.frames + 1 })
      else (0, tq) := by
  have hpeek : peekFrame tq f.seq = none := by
    refine List.find?_eq_none.mpr ?_
    intro g hg
    have hlt := (h.compare_end hm hg).2
    rw [hseq, decide_eq_true_eq]
    omega
  have hins : treeInsert f tq.pool = tq.pool ++ [f] := by
    refine insertSeq_eq_append ?_
    intro g hg
    have hgt := (h.compare_end hm hg).1
    rw [hseq]
    omega
  rw [picoEnqueueSegment, if_neg (by omega), doEnqueueSegment, hpeek, hins]
  by_cases hfit : tq.size + enqueueSegmentLen f ≤ tq.maxSize
  · rw [if_neg (by omega)]
    cases node with
    | true => rw [if_neg (by simp), if_pos ⟨hfit, rfl⟩]
    | false => rw [if_pos (by simp), if_neg (by simp)]
  · rw [if_pos (by omega), if_neg fun hc => hfit hc.1]

/-- Where holes may end: `tcp_split_segment` looks at frames at most a window behind the first. -/
def holesEnd : ℕ := 2 ^ 30 + 2 ^ 16

/-- An output queue in order, whose `size` is right and covers the bytes in it. -/
structure Wf (s : OutSocket) : Prop where
  size_eq : s.tcpqOut.size = (s.tcpqOut.pool.map enqueueSegmentLen).sum
  size_le : s.tcpqOut.size ≤ s.tcpqOut.maxSize
  max_eq : s.tcpqOut.maxSize = 16 * 1024
  counted : ∀ f ∈ s.tcpqOut.pool, f.payload.length ≤ enqueueSegmentLen f
  mss_le : s.mss ≤ 1460
  laid : ∃ a m, Laid holesEnd a 0 s.tcpqOut.pool m ∧ s.sndLast + 1 = adv a m

theorem payloadTotal_le {pool : List PicoFrame}
    (h : ∀ f ∈ pool, f.payload.length ≤ enqueueSegmentLen f) :
    payloadTotal pool ≤ (pool.map enqueueSegmentLen).sum := by
  induction pool with
  | nil => exact le_rfl
  | cons f fs ih =>
    have hf := h f (List.mem_cons_self ..)
    have hfs := ih fun g hg => h g (List.mem_cons_of_mem _ hg)
    rw [payloadTotal, List.map_cons, List.sum_cons, List.map_cons, List.sum_cons]
    rw [payloadTotal] at hfs
    omega

/-- The whole queue lies within half of the sequence numbers. -/
theorem Wf.end_lt {s : OutSocket} (h : Wf s) {a : BitVec 32} {m : ℕ}
    (hl : Laid holesEnd a 0 s.tcpqOut.pool m) : m < 2 ^ 31 := by
  have hend := hl.end_le
  have htotal := payloadTotal_le h.counted
  have hsize := h.size_le
  rw [h.size_eq, h.max_eq] at hsize
  rw [holesEnd] at hend
  omega

/-! One chunk -/

theorem picoTcpOverhead_eq (s : OutSocket) : picoTcpOverhead s = if s.tsOk then 36 else 24 := by
  rw [picoTcpOverhead, tcpOptionsSize, picoSizeTcphdr]
  cases s.tsOk <;> rfl

theorem picoSizeIphdr_le (s : OutSocket) : 20 ≤ picoSizeIphdr s ∧ picoSizeIphdr s ≤ 40 := by
  rw [picoSizeIphdr]
  split <;> omega

/-- A chunk and its headers fit the largest packet. -/
theorem Wf.space_le {s : OutSocket} (h : Wf s) :
    picoSocketXmitAvailSpace s + picoTcpOverhead s ≤ 1480 := by
  have hmss := h.mss_le
  have hip := picoSizeIphdr_le s
  have hle : picoTcpGetSocketMss s ≤ 1480 := by
    rw [picoTcpGetSocketMss, toUint16, picoSocketGetMss, picoSizeTcphdr, picoDeviceDefaultMtu,
      picoMinMss]
    split
    · omega
    · split <;> omega
  rw [picoSocketXmitAvailSpace]
  omega

/-- The frame of a chunk of `n` bytes. -/
def chunkFrame (s : OutSocket) (buf : List UInt8) (n : ℕ) : PicoFrame :=
  ⟨s.sndLast + 1, buf.take n, frameBufferLen s (n + picoTcpOverhead s)⟩

/-- The socket after the chunk is queued. -/
def pushed (s : OutSocket) (buf : List UInt8) (n : ℕ) : OutSocket :=
  let f := chunkFrame s buf n
  { s with
    tcpqOut := { s.tcpqOut with
      pool := s.tcpqOut.pool ++ [f]
      size := s.tcpqOut.size + enqueueSegmentLen f
      frames := s.tcpqOut.frames + 1 }
    sndLast := s.sndLast + BitVec.ofNat 32 n }

/-- The queue has room for a chunk of `n` bytes, and memory for it. -/
def Takes (s : OutSocket) (n : ℕ) (alloc : Alloc) : Prop :=
  alloc.frame ∧ alloc.node ∧
    s.tcpqOut.size + frameBufferLen s (n + picoTcpOverhead s) ≤ s.tcpqOut.maxSize

instance (s : OutSocket) (n : ℕ) (alloc : Alloc) : Decidable (Takes s n alloc) :=
  inferInstanceAs (Decidable (_ ∧ _ ∧ _))

/-- ONE CHUNK: it is appended, or refused and nothing happens. -/
theorem picoSocketXmitOne_spec {s : OutSocket} (h : Wf s) {buf : List UInt8} {n : ℕ} (hpos : 0 < n)
    (hspace : (n : ℤ) ≤ picoSocketXmitAvailSpace s) (hbuf : n ≤ buf.length) (alloc : Alloc) :
    (Takes s n alloc → picoSocketXmitOne s buf n alloc = (pushed s buf n, (n : ℤ))) ∧
      (¬ Takes s n alloc → ∃ w ≤ 0, picoSocketXmitOne s buf n alloc = (s, w)) := by
  obtain ⟨a, m, hl, hend⟩ := h.laid
  have hle := h.space_le
  have hip := picoSizeIphdr_le s
  have hn : toUint16 (n : ℤ) = n := by rw [toUint16]; omega
  have hsize : toUint16 ((n : ℤ) + picoTcpOverhead s) = n + picoTcpOverhead s := by
    rw [toUint16]; omega
  have hlen : enqueueSegmentLen (chunkFrame s buf n) =
      frameBufferLen s (n + picoTcpOverhead s) := by
    rw [enqueueSegmentLen, chunkFrame, frameBufferLen, picoSizeEthhdr, toUint16]
    simp only
    omega
  have hlenpos : 0 < enqueueSegmentLen (chunkFrame s buf n) := by
    rw [hlen, frameBufferLen]
    omega
  have htake : (buf.take n).length = n := List.length_take_of_le hbuf
  have henq := picoEnqueueSegment_end hl (h.end_lt hl) (f := chunkFrame s buf n) hend hlenpos alloc.node
  have hcall : picoSocketXmitOne s buf n alloc =
      if ¬ alloc.frame then (s, -1)
      else if 0 < (picoEnqueueSegment s.tcpqOut (chunkFrame s buf n) alloc.node).1 then
        ({ s with
          tcpqOut := (picoEnqueueSegment s.tcpqOut (chunkFrame s buf n) alloc.node).2
          sndLast := s.sndLast + BitVec.ofNat 32 (buf.take n).length }, ((buf.take n).length : ℤ))
      else (s, 0) := by
    rw [picoSocketXmitOne, hn, hsize]
    rfl
  rw [hcall, henq, htake]
  constructor
  · rintro ⟨hframe, hnode, hroom⟩
    rw [← hlen] at hroom
    have htakes : s.tcpqOut.size + enqueueSegmentLen (chunkFrame s buf n) ≤ s.tcpqOut.maxSize ∧
        alloc.node = true := ⟨hroom, hnode⟩
    have hret : (0 : ℤ) < enqueueSegmentLen (chunkFrame s buf n) := by omega
    simp only [hframe, not_true_eq_false, if_false, if_pos htakes, if_pos hret]
    rfl
  · intro hno
    by_cases hframe : alloc.frame
    · have hrefused : ¬ (s.tcpqOut.size + enqueueSegmentLen (chunkFrame s buf n) ≤
          s.tcpqOut.maxSize ∧ alloc.node = true) := by
        rintro ⟨hroom, hnode⟩
        rw [hlen] at hroom
        exact hno ⟨hframe, hnode, hroom⟩
      simp only [hframe, not_true_eq_false, if_false, if_neg hrefused, lt_irrefl]
      exact ⟨0, le_rfl, rfl⟩
    · rw [if_pos hframe]
      exact ⟨-1, by omega, rfl⟩

theorem waiting_pushed (s : OutSocket) (buf : List UInt8) (n : ℕ) :
    waiting (pushed s buf n) = waiting s ++ buf.take n := by
  simp [waiting, pushed, chunkFrame]

/-- The queue stays in order. -/
theorem Wf.pushed {s : OutSocket} (h : Wf s) {buf : List UInt8} {n : ℕ} (hpos : 0 < n)
    (hspace : (n : ℤ) ≤ picoSocketXmitAvailSpace s) (hbuf : n ≤ buf.length) {alloc : Alloc}
    (ht : Takes s n alloc) : Wf (pushed s buf n) := by
  obtain ⟨a, m, hl, hend⟩ := h.laid
  have hle := h.space_le
  have hip := picoSizeIphdr_le s
  have hlen : enqueueSegmentLen (chunkFrame s buf n) =
      frameBufferLen s (n + picoTcpOverhead s) := by
    rw [enqueueSegmentLen, chunkFrame, frameBufferLen, picoSizeEthhdr, toUint16]
    simp only
    omega
  have htake : (buf.take n).length = n := List.length_take_of_le hbuf
  refine ⟨?_, ?_, h.max_eq, ?_, h.mss_le, a, m + n, ?_, ?_⟩
  · change s.tcpqOut.size + enqueueSegmentLen (chunkFrame s buf n) =
      ((s.tcpqOut.pool ++ [chunkFrame s buf n]).map enqueueSegmentLen).sum
    rw [List.map_append, List.sum_append, h.size_eq]
    rfl
  · change s.tcpqOut.size + enqueueSegmentLen (chunkFrame s buf n) ≤ s.tcpqOut.maxSize
    rw [hlen]
    exact ht.2.2
  · intro f hf
    rcases List.mem_append.mp hf with hf | hf
    · exact h.counted f hf
    · rw [List.mem_singleton.mp hf, hlen, frameBufferLen]
      change (buf.take n).length ≤ _
      omega
  · have happ := hl.append (f := chunkFrame s buf n) (by change 0 < (buf.take n).length; omega) hend
    rwa [show (chunkFrame s buf n).payload.length = n from htake] at happ
  · change s.sndLast + BitVec.ofNat 32 n + 1 = adv a (m + n)
    rw [← adv_adv, ← hend, adv, BitVec.add_assoc, BitVec.add_comm (BitVec.ofNat 32 n), BitVec.add_assoc]

/-! The loop -/

section Loop

variable {space len : ℤ} {buf : List UInt8} (alloc : ℕ → Alloc)

/-- The size of the chunk that starts at byte `total`. -/
def chunkLen (space len : ℤ) (total : ℕ) : ℕ := (min (len - total) space).toNat

theorem chunkLen_spec (total : ℕ) (hpos : 0 < space) (hlt : (total : ℤ) < len) :
    (chunkLen space len total : ℤ) = min (len - total) space ∧ 0 < chunkLen space len total ∧
      ((total + chunkLen space len total : ℕ) : ℤ) ≤ len := by
  rw [chunkLen]
  omega

theorem picoSocketXmitLoop_turn {s : OutSocket} (total : ℕ) (h : Wf s)
    (hspace : picoSocketXmitAvailSpace s = space) (hpos : 0 < space) (hlt : (total : ℤ) < len)
    (hlen : len ≤ buf.length) (n : ℕ) :
    (Takes s (chunkLen space len total) (alloc total) →
      picoSocketXmitLoop space buf len alloc (n + 1) s total =
        picoSocketXmitLoop space buf len alloc n
          (pushed s (buf.drop total) (chunkLen space len total)) (total + chunkLen space len total)) ∧
    (¬ Takes s (chunkLen space len total) (alloc total) →
      picoSocketXmitLoop space buf len alloc (n + 1) s total = (s, total)) := by
  obtain ⟨hc, hcpos, hcle⟩ := chunkLen_spec total hpos hlt
  have hdrop : chunkLen space len total ≤ (buf.drop total).length := by
    rw [List.length_drop]
    omega
  obtain ⟨htakes, hrefused⟩ := picoSocketXmitOne_spec h hcpos (by omega) hdrop (alloc total)
  rw [picoSocketXmitLoop, if_pos hlt, ← hc]
  constructor
  · intro ht
    simp only [htakes ht]
    rw [if_neg (by omega), Int.toNat_natCast]
  · intro ht
    obtain ⟨w, hw, hcall⟩ := hrefused ht
    simp only [hcall]
    rw [if_pos hw]

/-- THE LOOP appends a prefix of what is left of the buffer, and counts it. -/
theorem picoSocketXmitLoop_spec (hpos : 0 < space) (hlen : len ≤ buf.length) (n : ℕ) :
    ∀ {s : OutSocket} {total : ℕ}, Wf s → picoSocketXmitAvailSpace s = space → (total : ℤ) ≤ len →
      ∃ s' k, picoSocketXmitLoop space buf len alloc n s total = (s', total + k) ∧ Wf s' ∧
        ((total + k : ℕ) : ℤ) ≤ len ∧ waiting s' = waiting s ++ (buf.drop total).take k := by
  induction n with
  | zero =>
    intro s total h _ hle
    exact ⟨s, 0, rfl, h, hle, by simp⟩
  | succ n ih =>
    intro s total h hspace hle
    by_cases hlt : (total : ℤ) < len
    · obtain ⟨hc, hcpos, hcle⟩ := chunkLen_spec total hpos hlt
      obtain ⟨htakes, hrefused⟩ := picoSocketXmitLoop_turn alloc total h hspace hpos hlt hlen n
      by_cases ht : Takes s (chunkLen space len total) (alloc total)
      · have hdrop : chunkLen space len total ≤ (buf.drop total).length := by
          rw [List.length_drop]
          omega
        have hwf := h.pushed hcpos (by omega) hdrop ht
        obtain ⟨s', k, hrun, hwf', hkle, hwait⟩ := ih hwf hspace hcle
        refine ⟨s', chunkLen space len total + k, ?_, hwf', by omega, ?_⟩
        · rw [htakes ht, hrun, Nat.add_assoc]
        · rw [hwait, waiting_pushed, List.append_assoc, List.take_add, List.drop_drop]
      · exact ⟨s, 0, hrefused ht, h, by omega, by simp⟩
    · refine ⟨s, 0, ?_, h, by omega, by simp⟩
      rw [picoSocketXmitLoop, if_neg hlt]
      rfl

/-- Nothing is written exactly if the first chunk is refused. -/
theorem picoSocketXmitLoop_pos {s : OutSocket} (h : Wf s) (hspace : picoSocketXmitAvailSpace s = space)
    (hpos : 0 < space) (hlen : len ≤ buf.length) (hlt : 0 < len) :
    0 < (picoSocketXmitLoop space buf len alloc len.toNat s 0).2 ↔
      Takes s (chunkLen space len 0) (alloc 0) := by
  obtain ⟨n, hn⟩ : ∃ n, len.toNat = n + 1 := Nat.exists_eq_succ_of_ne_zero (by omega)
  obtain ⟨hc, hcpos, hcle⟩ := chunkLen_spec 0 hpos (by omega)
  obtain ⟨htakes, hrefused⟩ :=
    picoSocketXmitLoop_turn alloc 0 h hspace hpos (by omega) hlen n
  rw [hn]
  by_cases ht : Takes s (chunkLen space len 0) (alloc 0)
  · have hdrop : chunkLen space len 0 ≤ (buf.drop 0).length := by
      rw [List.length_drop]
      omega
    have hwf := h.pushed hcpos (by omega) hdrop ht
    obtain ⟨s', k, hrun, -⟩ := picoSocketXmitLoop_spec alloc hpos hlen n hwf hspace hcle
    rw [htakes ht, hrun]
    refine iff_of_true ?_ ht
    simp only
    omega
  · rw [hrefused ht]
    exact iff_of_false (lt_irrefl 0) ht

end Loop

/-! The call -/

/-- The call is refused with -1 before its length is looked at. -/
def Refused (s : OutSocket) : Prop := ¬ s.inTree ∨ ¬ s.bound ∨ ¬ s.connected ∨ s.shutLocal

instance (s : OutSocket) : Decidable (Refused s) :=
  inferInstanceAs (Decidable (_ ∨ _ ∨ _ ∨ _))

/-- The call fails with -1, or its first chunk is taken. -/
def Progresses (s : OutSocket) (count : ℕ) (alloc : ℕ → Alloc) : Prop :=
  let len := toInt32 count
  let space := picoSocketXmitAvailSpace s
  Refused s ∨ len < 0 ∨ 0 < len ∧ (s.remotePort = 0 ∨ space < 0 ∨
    0 < space ∧ Takes s (min len space).toNat (alloc 0))

instance (s : OutSocket) (count : ℕ) (alloc : ℕ → Alloc) : Decidable (Progresses s count alloc) := by
  unfold Progresses
  infer_instance

theorem picoSocketWrite_refused {s : OutSocket} (hr : Refused s) (buf : List UInt8) (len : ℤ)
    (alloc : ℕ → Alloc) : picoSocketWrite s buf len alloc = (s, -1) := by
  rw [picoSocketWrite, picoSocketWriteCheckState]
  by_cases hin : s.inTree
  · have hrest : ¬ s.bound ∨ ¬ s.connected ∨ s.shutLocal := hr.resolve_left (not_not.mpr hin)
    rw [if_neg (not_not.mpr hin), if_pos]
    split
    · decide
    · split
      · decide
      · rename_i hb hc
        rw [not_not] at hb hc
        simp [hb, hc] at hrest
        rw [if_pos hrest]
        decide
  · rw [if_pos hin]

theorem picoSocketWrite_accepted {s : OutSocket} (hr : ¬ Refused s) (buf : List UInt8) (len : ℤ)
    (alloc : ℕ → Alloc) :
    picoSocketWrite s buf len alloc = picoSocketSendto s buf len alloc := by
  rw [Refused, not_or, not_or, not_or, not_not, not_not, not_not] at hr
  obtain ⟨hin, hb, hc, hshut⟩ := hr
  rw [picoSocketWrite, picoSocketWriteCheckState, if_neg (not_not.mpr hin), if_neg (not_not.mpr hb),
    if_neg (not_not.mpr hc), if_neg hshut, if_neg (lt_irrefl 0)]

/-- A packet that has no room for data: the loop ends in its first turn. -/
theorem picoSocketXmitLoop_noSpace (s : OutSocket) (buf : List UInt8) (len : ℤ) (alloc : ℕ → Alloc)
    (n : ℕ) : (picoSocketXmitLoop 0 buf len alloc n s 0).2 = 0 := by
  cases n with
  | zero => rfl
  | succ n =>
    rw [picoSocketXmitLoop]
    by_cases hlt : ((0 : ℕ) : ℤ) < len
    · have hchunk : min (len - ((0 : ℕ) : ℤ)) 0 = 0 := by omega
      have hw : (picoSocketXmitOne s (buf.drop 0) 0 (alloc 0)).2 ≤ 0 := by
        rw [picoSocketXmitOne]
        split
        · simp
        · simp only [picoTcpPush]
          split
          · simp [toUint16]
          · exact le_rfl
      rw [if_pos hlt, hchunk]
      simp only [if_pos hw]
    · rw [if_neg hlt]

theorem toInt32_le {n : ℕ} : toInt32 n ≤ n := by
  rw [toInt32_eq]
  split <;> omega

/-- The call past its first checks. -/
theorem sendto_reports_iff {s : OutSocket} (h : Wf s) {buf : List UInt8} {len : ℤ}
    (hlen : len ≤ buf.length) (alloc : ℕ → Alloc) :
    Reports s buf (picoSocketSendto s buf len alloc) ↔
      len < 0 ∨ 0 < len ∧ (s.remotePort = 0 ∨ picoSocketXmitAvailSpace s < 0 ∨
        0 < picoSocketXmitAvailSpace s ∧
          Takes s (min len (picoSocketXmitAvailSpace s)).toNat (alloc 0)) := by
  have hzero : ∀ s', ¬ Reports s buf (s', 0) := by
    rintro s' (heq | hle)
    · simp at heq
    · exact absurd hle.1 (by simp)
  rw [picoSocketSendto]
  rcases lt_trichotomy len 0 with hneg | rfl | hpos
  · rw [if_neg hneg.ne, if_pos (.inl hneg)]
    exact iff_of_true (.inl rfl) (.inl hneg)
  · rw [if_pos rfl]
    exact iff_of_false (hzero s) (by simp)
  rw [if_neg hpos.ne']
  by_cases hport : s.remotePort = 0
  · rw [if_pos (.inr hport)]
    exact iff_of_true (.inl rfl) (.inr ⟨hpos, .inl hport⟩)
  rw [if_neg (by omega), picoSocketXmit]
  rcases lt_trichotomy (picoSocketXmitAvailSpace s) 0 with hspace | hspace | hspace
  · rw [if_pos hspace]
    exact iff_of_true (.inl rfl) (.inr ⟨hpos, .inr (.inl hspace)⟩)
  · have hnone := picoSocketXmitLoop_noSpace s buf len alloc len.toNat
    rw [if_neg (by omega), hspace]
    generalize picoSocketXmitLoop 0 buf len alloc len.toNat s 0 = r at hnone
    obtain ⟨s', total⟩ := r
    simp only at hnone
    subst hnone
    exact iff_of_false (hzero s') (by omega)
  · have hloop := picoSocketXmitLoop_pos alloc h rfl hspace hlen hpos
    obtain ⟨s', k, hrun, -, hkle, hwait⟩ :=
      picoSocketXmitLoop_spec alloc hspace hlen len.toNat h rfl hpos.le
    rw [if_neg (by omega)]
    rw [hrun, chunkLen] at hloop
    simp only [hrun, Nat.zero_add, Nat.cast_zero, Int.sub_zero] at hloop hkle ⊢
    by_cases hk : 0 < k
    · refine iff_of_true (.inr ⟨?_, ?_, ?_⟩) (.inr ⟨hpos, .inr (.inr ⟨hspace, hloop.mp hk⟩)⟩)
      · simp only
        omega
      · simp only
        omega
      · rw [hwait, List.drop_zero, Int.toNat_natCast]
    · have hk0 : k = 0 := by omega
      subst hk0
      refine iff_of_false (hzero s') ?_
      rintro (hneg | ⟨-, hport' | hneg | ⟨-, htakes⟩⟩)
      · omega
      · exact hport hport'
      · omega
      · exact hk (hloop.mpr htakes)

/-- WRITE: it reports what it queued exactly if it fails outright or takes the first chunk. -/
theorem reports_iff {s : OutSocket} (h : Wf s) (buf : List UInt8) (alloc : ℕ → Alloc) :
    Reports s buf (write s buf alloc) ↔ Progresses s buf.length alloc := by
  rw [write, Progresses]
  by_cases hr : Refused s
  · rw [picoSocketWrite_refused hr]
    exact iff_of_true (.inl rfl) (.inl hr)
  · rw [picoSocketWrite_accepted hr, sendto_reports_iff h toInt32_le]
    exact (or_iff_right hr).symm

/-! Runs: the queue stays in order -/

/-- The same queue in a socket that differs elsewhere. -/
theorem Wf.of_queue {s s' : OutSocket} (h : Wf s) (hq : s'.tcpqOut = s.tcpqOut) (hmss : s'.mss ≤ 1460)
    (hlast : s'.sndLast = s.sndLast) : Wf s' := by
  obtain ⟨hsize, hle, hmax, hcount, -, hlaid⟩ := h
  rw [← hq] at hsize hle hmax hcount hlaid
  rw [← hlast] at hlaid
  exact ⟨hsize, hle, hmax, hcount, hmss, hlaid⟩

/-- An empty queue is in order wherever the next byte goes. -/
theorem wf_empty {s : OutSocket} (hpool : s.tcpqOut.pool = []) (hsize : s.tcpqOut.size = 0)
    (hmax : s.tcpqOut.maxSize = 16 * 1024) (hmss : s.mss ≤ 1460) : Wf s := by
  refine ⟨by rw [hpool, hsize]; rfl, by omega, hmax, by simp [hpool], hmss, s.sndLast + 1, 0, ?_, ?_⟩
  · rw [hpool]
    exact .inl rfl
  · rw [adv_zero]

theorem mss_le (s : OutSocket) : toUint16 (picoSocketGetMss s - picoSizeTcphdr) ≤ 1460 := by
  have hip := picoSizeIphdr_le s
  rw [toUint16, picoSocketGetMss, picoSizeTcphdr, picoDeviceDefaultMtu, picoMinMss]
  split <;> omega

theorem wf_begin (isIpv6 hasDev : Bool) (remotePort : ℕ) (sndNxt : BitVec 32) :
    Wf (begin isIpv6 hasDev remotePort sndNxt) := wf_empty rfl rfl rfl (mss_le _)

/-- STEP, a write that has room for data in a packet. -/
theorem Wf.write {s : OutSocket} (h : Wf s) (buf : List UInt8) (alloc : ℕ → Alloc)
    (hspace : picoSocketXmitAvailSpace s ≠ 0) : Wf (TcpOutput.write s buf alloc).1 := by
  rw [TcpOutput.write]
  by_cases hr : Refused s
  · rw [picoSocketWrite_refused hr]
    exact h
  rw [picoSocketWrite_accepted hr, picoSocketSendto]
  have hlen : toInt32 buf.length ≤ buf.length := toInt32_le
  generalize toInt32 buf.length = len at hlen
  by_cases hzero : len = 0
  · rw [if_pos hzero]
    exact h
  rw [if_neg hzero]
  by_cases hbad : len < 0 ∨ s.remotePort = 0
  · rw [if_pos hbad]
    exact h
  rw [if_neg hbad, picoSocketXmit]
  by_cases hneg : picoSocketXmitAvailSpace s < 0
  · rw [if_pos hneg]
    exact h
  have hpos : 0 < picoSocketXmitAvailSpace s := by omega
  have hstart : ((0 : ℕ) : ℤ) ≤ len := by omega
  obtain ⟨s', k, hrun, hwf, -⟩ :=
    picoSocketXmitLoop_spec alloc hpos hlen len.toNat h rfl hstart
  rw [if_neg hneg, hrun]
  exact hwf

theorem picoSeqCompare_self (a : BitVec 32) : picoSeqCompare a a = 0 := by
  rw [picoSeqCompare_eq, BitVec.sub_self]
  rfl

/-- Discarding the first frame. -/
theorem picoDiscardSegment_head {tq : OutQueue} {f : PicoFrame} {fs : List PicoFrame}
    (hp : tq.pool = f :: fs) : picoDiscardSegment tq f = { tq with
      pool := fs
      size := tq.size - enqueueSegmentLen f
      frames := tq.frames - 1 } := by
  have hself := picoSeqCompare_self f.seq
  rw [picoDiscardSegment, peekFrame, findSeq, hp, List.find?_cons_of_pos (by simp [hself]),
    List.eraseP_cons_of_pos (by simp [hself])]
  rfl

/-- The queue without its first frame. -/
theorem Wf.discard_head {s : OutSocket} (h : Wf s) {f : PicoFrame} {fs : List PicoFrame}
    (hp : s.tcpqOut.pool = f :: fs) : Wf { s with tcpqOut := picoDiscardSegment s.tcpqOut f } := by
  obtain ⟨hsize, hle, hmax, hcount, hmss, a, m, hl, hend⟩ := h
  rw [hp] at hsize hcount hl
  rw [List.map_cons, List.sum_cons] at hsize
  obtain ⟨j, hole, hseq, hpos, htail⟩ := hl
  obtain ⟨m', rfl⟩ := Nat.exists_eq_add_of_le htail.start_le
  rw [picoDiscardSegment_head hp]
  refine ⟨?_, ?_, hmax, fun g hg => hcount g (List.mem_cons_of_mem _ hg), hmss,
    adv a (j + f.payload.length), m', Laid.shift _ htail, by rw [adv_adv]; exact hend⟩
  · simp only
    omega
  · simp only
    omega

/-- STEP, an acknowledgement: it takes frames off the front. -/
theorem Wf.releaseAllUntil (seq : BitVec 32) (fs : List PicoFrame) : ∀ {s : OutSocket}, Wf s →
    s.tcpqOut.pool = fs → Wf { s with tcpqOut := TcpOutput.releaseAllUntil seq fs s.tcpqOut } := by
  induction fs with
  | nil =>
    intro s h _
    exact h
  | cons f fs ih =>
    intro s h hp
    rw [TcpOutput.releaseAllUntil]
    split
    · refine ih (h.discard_head hp) ?_
      rw [picoDiscardSegment_head hp]
    · exact h

theorem adv_inj {a : BitVec 32} {i j : ℕ} (hi : i < 2 ^ 31) (hj : j < 2 ^ 31)
    (h : adv a i = adv a j) : i = j := by
  have hcmp := picoSeqCompare_adv a hi hj
  rw [h, picoSeqCompare_self] at hcmp
  omega

/-- Where a frame lies among the others. -/
structure Around (a : BitVec 32) (pre : List PicoFrame) (f : PicoFrame) (post : List PicoFrame)
    (p m : ℕ) : Prop where
  seq : f.seq = adv a p
  pos : 0 < f.payload.length
  end_le : p + f.payload.length ≤ m
  before : ∀ g ∈ pre, ∃ i, g.seq = adv a i ∧ i < p
  after : ∀ g ∈ post, ∃ i, g.seq = adv a i ∧ p + f.payload.length ≤ i ∧ i < m

theorem Laid.around {b : ℕ} {a : BitVec 32} {f : PicoFrame} {post : List PicoFrame} :
    ∀ {pre : List PicoFrame} {k m : ℕ}, Laid b a k (pre ++ f :: post) m →
      ∃ p, k ≤ p ∧ Around a pre f post p m
  | [], k, m, ⟨p, hole, hseq, hpos, htail⟩ => by
    refine ⟨p, hole.le, hseq, hpos, htail.start_le, by simp, ?_⟩
    intro g hg
    obtain ⟨i, hi, hg, hgpos, hend⟩ := htail.mem g hg
    exact ⟨i, hg, hi, by omega⟩
  | g :: pre, k, m, ⟨j, hole, hseq, hpos, htail⟩ => by
    have hj := hole.le
    obtain ⟨p, hp, h⟩ := htail.around
    refine ⟨p, by omega, h.seq, h.pos, h.end_le, ?_, h.after⟩
    intro g' hg'
    rcases List.mem_cons.mp hg' with rfl | hg'
    · exact ⟨j, hseq, by omega⟩
    · exact h.before g' hg'

/-- Without a frame that ends before `b`. -/
theorem Laid.remove {b : ℕ} {a : BitVec 32} {f : PicoFrame} {post : List PicoFrame} :
    ∀ {pre : List PicoFrame} {k m : ℕ}, Laid b a k (pre ++ f :: post) m →
      (∀ p ≤ m, f.seq = adv a p → p + f.payload.length ≤ b) → Laid b a k (pre ++ post) m
  | [], k, m, ⟨p, hole, hseq, hpos, htail⟩, hb => by
    have hp := hole.le
    have hm := htail.start_le
    exact htail.lower (by omega) (hb p (by omega) hseq)
  | _ :: _, _, _, ⟨j, hole, hseq, hpos, htail⟩, hb => ⟨j, hole, hseq, hpos, htail.remove hb⟩

/-- With the second part of such a frame instead of it. -/
theorem Laid.replace {b : ℕ} {a : BitVec 32} {f g : PicoFrame} {post : List PicoFrame} {size : ℕ}
    (hg : g.seq = adv f.seq size) (hlen : g.payload.length = f.payload.length - size)
    (hsize : size < f.payload.length) :
    ∀ {pre : List PicoFrame} {k m : ℕ}, Laid b a k (pre ++ f :: post) m →
      (∀ p ≤ m, f.seq = adv a p → p + f.payload.length ≤ b) → Laid b a k (pre ++ g :: post) m
  | [], k, m, ⟨p, hole, hseq, hpos, htail⟩, hb => by
    have hp := hole.le
    have hm := htail.start_le
    have hend := hb p (by omega) hseq
    refine ⟨p + size, ?_, by rw [hg, hseq, adv_adv], by omega, ?_⟩
    · rcases Nat.eq_zero_or_pos size with rfl | hpos
      · exact hole
      · exact .inr ⟨by omega, by omega⟩
    · rw [hlen, show p + size + (f.payload.length - size) = p + f.payload.length by omega]
      exact htail
  | _ :: _, _, _, ⟨j, hole, hseq, hpos, htail⟩, hb =>
    ⟨j, hole, hseq, hpos, Laid.replace hg hlen hsize htail hb⟩

theorem picoEnqueueSegment_cases (tq : OutQueue) (f : PicoFrame) (node : Bool) :
    (picoEnqueueSegment tq f node).2 = tq ∨
      tq.size + enqueueSegmentLen f ≤ tq.maxSize ∧ (picoEnqueueSegment tq f node).2 = { tq with
        pool := treeInsert f tq.pool
        size := tq.size + enqueueSegmentLen f
        frames := tq.frames + 1 } := by
  rw [picoEnqueueSegment, doEnqueueSegment]
  split
  · exact .inl rfl
  · split
    · exact .inl rfl
    · split
      · exact .inl rfl
      · exact .inr ⟨by omega, rfl⟩

/-- Discarding a frame in the middle. -/
theorem picoDiscardSegment_around {tq : OutQueue} {a : BitVec 32} {pre post : List PicoFrame}
    {f : PicoFrame} {p m : ℕ} (hp : tq.pool = pre ++ f :: post) (h : Around a pre f post p m)
    (hm : m < 2 ^ 31) : picoDiscardSegment tq f = { tq with
      pool := pre ++ post
      size := tq.size - enqueueSegmentLen f
      frames := tq.frames - 1 } := by
  have hself := picoSeqCompare_self f.seq
  have hpre : ∀ g ∈ pre, ¬ decide (picoSeqCompare g.seq f.seq = 0) = true := by
    intro g hg
    obtain ⟨i, hi, hip⟩ := h.before g hg
    have hend := h.end_le
    rw [hi, h.seq, picoSeqCompare_adv a (by omega) (by omega), decide_eq_true_eq]
    omega
  have hfound : (peekFrame tq f.seq).isSome := by
    rw [peekFrame, findSeq, List.find?_isSome]
    exact ⟨f, by rw [hp]; simp, by simp [hself]⟩
  rw [picoDiscardSegment, if_pos hfound, hp, List.eraseP_append_right _ hpre,
    List.eraseP_cons_of_pos (by simp [hself])]

/-- STEP, a frame is split: its first part is gone, the second may be. -/
theorem Wf.tcpSplitSegment {s : OutSocket} (h : Wf s) {a : BitVec 32} {pre post : List PicoFrame}
    {f : PicoFrame} {m : ℕ} (hp : s.tcpqOut.pool = pre ++ f :: post)
    (hl : Laid holesEnd a 0 s.tcpqOut.pool m) (hend : s.sndLast + 1 = adv a m)
    (hb : ∀ p ≤ m, f.seq = adv a p → p + f.payload.length ≤ holesEnd) (size : ℕ) (alloc : Alloc) :
    Wf (TcpOutput.tcpSplitSegment s f size alloc) := by
  rw [TcpOutput.tcpSplitSegment]
  split
  · exact h
  next hsplit =>
    rw [not_or] at hsplit
    have hm := h.end_lt hl
    obtain ⟨hsize, hle, hmax, hcount, hmss, -⟩ := h
    rw [hp] at hsize hcount hl
    obtain ⟨p, -, haround⟩ := hl.around
    have hfcount := hcount f (by simp)
    have hfin := haround.end_le
    have hsum : s.tcpqOut.size = ((pre ++ post).map enqueueSegmentLen).sum + enqueueSegmentLen f := by
      rw [hsize]
      simp only [List.map_append, List.map_cons, List.sum_append, List.sum_cons]
      omega
    have hrest : ∀ g ∈ pre ++ post, g.payload.length ≤ enqueueSegmentLen g := by
      intro g hg
      refine hcount g ?_
      rcases List.mem_append.mp hg with hg | hg
      · exact List.mem_append_left _ hg
      · exact List.mem_append_right _ (List.mem_cons_of_mem _ hg)
    have hdiscard := picoDiscardSegment_around hp haround hm
    generalize picoDiscardSegment s.tcpqOut f = tq at hdiscard
    generalize hf2 : (⟨adv f.seq size, f.payload.drop size,
      frameBufferLen s (f.payload.length - size + picoTcpOverhead s)⟩ : PicoFrame) = f2
    have hseq2 : f2.seq = adv f.seq size := by rw [← hf2]
    have hlen2 : f2.payload.length = f.payload.length - size := by rw [← hf2]; simp
    have hcount2 : f2.payload.length ≤ enqueueSegmentLen f2 := by
      have hover := picoTcpOverhead_eq s
      have hip := picoSizeIphdr_le s
      have hover : picoTcpOverhead s ≤ 36 := by rw [hover]; split <;> omega
      rw [hlen2, ← hf2, enqueueSegmentLen, frameBufferLen, picoSizeEthhdr, toUint16]
      simp only
      omega
    simp only
    rcases picoEnqueueSegment_cases tq f2 alloc.node with hq | ⟨hfit, hq⟩
    · rw [hq, hdiscard]
      refine ⟨?_, ?_, hmax, hrest, hmss, a, m, hl.remove hb, hend⟩
      · simp only
        omega
      · simp only
        omega
    · have hpost : ∀ g ∈ post, picoSeqCompare f2.seq g.seq < 0 := by
        intro g hg
        obtain ⟨i, hi, hlo, hhi⟩ := haround.after g hg
        rw [hseq2, haround.seq, adv_adv, hi, picoSeqCompare_adv a (by omega) (by omega)]
        omega
      have hpre : ∀ g ∈ pre, ¬ picoSeqCompare f2.seq g.seq < 0 := by
        intro g hg
        obtain ⟨i, hi, hip⟩ := haround.before g hg
        rw [hseq2, haround.seq, adv_adv, hi, picoSeqCompare_adv a (by omega) (by omega)]
        omega
      rw [hq]
      subst hdiscard
      simp only at hfit
      refine ⟨?_, hfit, hmax, ?_, hmss, a, m, ?_, hend⟩
      · simp only [treeInsert, insertSeq_between hpre hpost, List.map_append, List.map_cons, List.sum_append,
          List.sum_cons] at hsum ⊢
        omega
      · simp only [treeInsert, insertSeq_between hpre hpost]
        intro g hg
        rcases List.mem_append.mp hg with hg | hg
        · exact hrest g (List.mem_append_left _ hg)
        · rcases List.mem_cons.mp hg with rfl | hg
          · exact hcount2
          · exact hrest g (List.mem_append_right _ hg)
      · simp only [treeInsert, insertSeq_between hpre hpost]
        exact Laid.replace hseq2 hlen2 (by omega) hl hb

/-- Positions may be counted from the first frame. -/
theorem Wf.laid_head {s : OutSocket} (h : Wf s) {una : PicoFrame} {fs : List PicoFrame}
    (hp : s.tcpqOut.pool = una :: fs) :
    ∃ m, Laid holesEnd una.seq 0 s.tcpqOut.pool m ∧ s.sndLast + 1 = adv una.seq m := by
  obtain ⟨a, m, hl, hend⟩ := h.laid
  rw [hp] at hl ⊢
  obtain ⟨j, -, hseq, hpos, htail⟩ := hl
  have hm := htail.start_le
  obtain ⟨m', rfl⟩ := Nat.exists_eq_add_of_le (show j ≤ m by omega)
  rw [hseq]
  refine ⟨m', Laid.shift j ⟨j, .inl rfl, hseq, hpos, htail⟩, by rw [adv_adv]; exact hend⟩

/-- STEP, a turn of the output loop, for windows as the option for their scale allows them. -/
theorem Wf.picoTcpOutputTurn {s : OutSocket} (h : Wf s) (seq : BitVec 32) {window : ℕ}
    (hw : window < 2 ^ 30) (alloc : Alloc) : Wf (TcpOutput.picoTcpOutputTurn s seq window alloc) := by
  rw [TcpOutput.picoTcpOutputTurn]
  split
  · next una f huna hf =>
    obtain ⟨fs, hp⟩ := List.head?_eq_some_iff.mp huna
    obtain ⟨m, hl, hend⟩ := h.laid_head hp
    obtain ⟨-, pre, post, hsplit, -⟩ := List.find?_eq_some_iff_append.mp hf
    have hm := h.end_lt hl
    have hmem : f ∈ s.tcpqOut.pool := by rw [hsplit]; simp
    have hcount := h.counted f hmem
    have hlt : enqueueSegmentLen f < 2 ^ 16 := toUint16_lt _
    obtain ⟨p, -, hseq, hpos, hfin⟩ := hl.mem f hmem
    have hdiff : picoSeqCompare f.seq una.seq = p := by
      have hcmp := picoSeqCompare_adv una.seq (m := p) (n := 0) (by omega) (by omega)
      rw [adv_zero, ← hseq] at hcmp
      simpa using hcmp
    simp only [hdiff]
    split
    · exact h
    · split
      · exact h
      next hin =>
        split
        · refine h.tcpSplitSegment hsplit hl hend ?_ _ alloc
          intro q hq hfq
          have hqp : q = p := adv_inj (by omega) (by omega) (hfq.symm.trans hseq)
          rw [toUint32] at hin
          rw [holesEnd]
          omega
        · exact h
  · exact h

/-- No write goes into packets that have no room for data (its empty frame would be freed in the queue),
    windows are as the scale option allows them, and the SYN is not sent again with data queued. -/
def Undisturbed (s : OutSocket) : Act → Prop
  | .write _ _ => Refused s ∨ picoSocketXmitAvailSpace s ≠ 0
  | .output _ window _ => window < 2 ^ 30
  | .initconn _ => s.tcpqOut.pool = []
  | _ => True

instance (s : OutSocket) (a : Act) : Decidable (Undisturbed s a) := by
  unfold Undisturbed; split <;> infer_instance

/-- STEP -/
theorem wf_step {s s' : OutSocket} {a : Act} (h : Wf s) (hc : Undisturbed s a)
    (hs : step s a = some s') : Wf s' := by
  cases a with
  | write buf alloc =>
    cases hs
    rcases hc with hr | hspace
    · rw [write, picoSocketWrite_refused hr]
      exact h
    · exact h.write buf alloc hspace
  | ack ackn =>
    cases hs
    exact h.releaseAllUntil ackn _ rfl
  | output seq window alloc =>
    cases hs
    exact h.picoTcpOutputTurn seq hc alloc
  | optionMss mss =>
    cases hs
    exact h.of_queue rfl ((min_le_left ..).trans h.mss_le) rfl
  | optionTimestamp =>
    cases hs
    exact h.of_queue rfl h.mss_le rfl
  | initconn sndNxt =>
    cases hs
    have hsize := h.size_eq
    have hpool : s.tcpqOut.pool = [] := hc
    rw [hpool] at hsize
    exact wf_empty hpool hsize h.max_eq (mss_le _)
  | discardAll =>
    cases hs
    exact wf_empty rfl rfl h.max_eq h.mss_le
  | state inTree bound connected shutLocal =>
    cases hs
    exact h.of_queue rfl h.mss_le rfl

/-- WRITE, in every state of every run: it reports exactly what it queued, if and only if it fails
    outright or its first chunk finds room and memory. Otherwise it returns 0. -/
theorem write_reports_iff {isIpv6 hasDev : Bool} {remotePort : ℕ} {sndNxt : BitVec 32}
    {as : List Act} {s : OutSocket}
    (hm : Meets step Undisturbed (begin isIpv6 hasDev remotePort sndNxt) as)
    (hr : run step (begin isIpv6 hasDev remotePort sndNxt) as = some s)
    (buf : List UInt8) (alloc : ℕ → Alloc) :
    Reports s buf (write s buf alloc) ↔ Progresses s buf.length alloc := by
  have hwf : Wf s := by
    refine run_keeps ?_ (wf_begin isIpv6 hasDev remotePort sndNxt) hm hr
    intro s a t h hc hs
    exact wf_step h hc hs
  exact reports_iff hwf buf alloc

/-- Memory is not short. -/
def plenty : ℕ → Alloc := fun _ => ⟨true, true⟩

/-- Three bytes are written, sent into a window of two, and acknowledged. -/
def splitRun : List Act := [.write [1, 2, 3] plenty, .output 8 2 ⟨true, true⟩, .ack 10]

theorem write_reports_iff_split : ∃ s, run step (begin false true 80 7) splitRun = some s ∧
    waiting s = [3] ∧ Reports s [4, 5] (write s [4, 5] plenty) := by
  obtain ⟨s, hs, hwait, hprog⟩ : ∃ s, run step (begin false true 80 7) splitRun = some s ∧
      waiting s = [3] ∧ Progresses s 2 plenty :=
    ⟨_, rfl, by decide +kernel, by decide +kernel⟩
  have hm : Meets step Undisturbed (begin false true 80 7) splitRun := by decide +kernel
  exact ⟨s, hs, hwait, (write_reports_iff hm hs [4, 5] plenty).mpr hprog⟩

/-- A buffer that fills a segment. -/
def full : List UInt8 := .replicate 1456 1

/-- Ten full segments fill the queue; the next `write()` returns 0. -/
theorem write_returns_zero : ∃ s,
    run step (begin false true 80 7) (.replicate 10 (.write full plenty)) = some s ∧
      ¬ Reports s full (write s full plenty) := by
  obtain ⟨s, hs, hzero⟩ : ∃ s, run step (begin false true 80 7)
      (.replicate 10 (.write full plenty)) = some s ∧ (write s full plenty).2 = 0 :=
    ⟨_, rfl, by decide +kernel⟩
  refine ⟨s, hs, ?_⟩
  rintro (heq | hle)
  · rw [heq] at hzero
    simp at hzero
  · rw [hzero] at hle
    exact absurd hle.1 (by simp)

end FdPicotcp.TcpOutput
