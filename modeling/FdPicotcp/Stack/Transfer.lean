import FdPicotcp.Stack.Reassembly
import FdPicotcp.Stack.TcpOutput

/-! Does what one application writes reach the other (`modules/pico_tcp.c`)?

    Two sockets and the network between them, in one direction. `pico_tcp_output` hands the frames of
    `tcpq_out` to the network and splits one that is too long for the window; after a timeout or
    duplicate acknowledgements frames are handed over again. The network may lose what is on the wire,
    repeat it and change its order. Which frame is sent when is left open: congestion control, timers
    and the counting of frames in flight choose among the frames in the queue. -/

namespace FdPicotcp.Transfer
open CInt TcpQueue Pieces Transition
open TcpOutput (OutSocket PicoFrame OutQueue Alloc Wf peekFrame Refused waiting pushed
  picoSocketXmitAvailSpace picoSocketXmitLoop)
open Reassembly (Receiver segment)

/-- A segment with data on the wire; `pos` is the position of its first byte in the stream. -/
structure Packet where
  pos : ℕ
  seq : BitVec 32
  payload : List UInt8
  deriving DecidableEq

/-- An acknowledgement on the wire. -/
structure Ack where
  pos : ℕ
  ackn : BitVec 32
  deriving DecidableEq

/-- One direction of a connection: the two sockets, and what is on its way between them. -/
structure Connection where
  sender : OutSocket
  /-- what `write()` has accepted -/
  written : List UInt8
  wire : List Packet
  receiver : Receiver
  acks : List Ack

/-- Counted back from `snd_last`. -/
def position (c : Connection) (seq : BitVec 32) : ℕ :=
  c.written.length - (c.sender.sndLast + 1 - seq).toNat

/-- A copy of a frame goes to the network unless there is no memory or no room for it (`sent`). -/
def transmit (c : Connection) (seq : BitVec 32) (payload : List UInt8) (sent : Bool) : Connection :=
  if sent then { c with wire := c.wire ++ [⟨position c seq, seq, payload⟩] } else c

/-- `tcp_send`, which takes a header without a sequence number for one that has yet to get it. The
    frame may be one of the queue. -/
def tcpSend (c : Connection) (f : PicoFrame) (sndNxt : BitVec 32) (sent : Bool) : Connection :=
  if f.seq = 0 then
    let renumber (g : PicoFrame) : PicoFrame := if g = f then { g with seq := sndNxt } else g
    transmit { c with sender.tcpqOut.pool := c.sender.tcpqOut.pool.map renumber } sndNxt f.payload sent
  else transmit c f.seq f.payload sent

/-- What `tcp_split_segment` returns: the frame, NULL, or its first part. -/
def splitFirst (s : OutSocket) (f : PicoFrame) (size : ℕ) (alloc : Alloc) : Option PicoFrame :=
  if f.payload.length ≤ size then some f
  else if ¬ alloc.frame then none
  else some ⟨f.seq, f.payload.take size, TcpOutput.frameBufferLen s (size + TcpOutput.picoTcpOverhead s)⟩

/-- The window is too small for the frame, and `tcp_split_segment` takes it apart. -/
def splits (una f : PicoFrame) (window : ℕ) : Bool :=
  window < toUint32 (picoSeqCompare f.seq una.seq + f.payload.length) ∧
    toUint16 window < f.payload.length

/-- A turn of `pico_tcp_output` for the frame at `seq`. -/
def picoTcpOutputTurn (c : Connection) (seq sndNxt : BitVec 32) (window : ℕ) (alloc : Alloc)
    (sent : Bool) : Connection :=
  match c.sender.tcpqOut.pool.head?, peekFrame c.sender.tcpqOut seq with
  | some una, some f =>
    let seqDiff := picoSeqCompare f.seq una.seq
    if seqDiff < 0 then c
    else if window ≤ toUint32 seqDiff then c
    else if window < toUint32 (seqDiff + f.payload.length) then
      match splitFirst c.sender f (toUint16 window) alloc with
      | none => c
      | some f1 =>
        let s := TcpOutput.tcpSplitSegment c.sender f (toUint16 window) alloc
        if f1.payload = [] then { c with sender := s } else tcpSend { c with sender := s } f1 sndNxt sent
    else tcpSend c f sndNxt sent
  | _, _ => c

/-- `tcp_rto_xmit` and `tcp_retrans` of the frame at `seq`. -/
def retransmit (c : Connection) (seq : BitVec 32) (sent : Bool) : Connection :=
  match peekFrame c.sender.tcpqOut seq with
  | none => c
  | some f => transmit c f.seq f.payload sent

/-- What the two applications do, the two stacks, and the wire. -/
inductive Act where
  | write (buf : List UInt8) (alloc : ℕ → Alloc)
  | output (seq sndNxt : BitVec 32) (window : ℕ) (alloc : Alloc) (sent : Bool)
  | retransmit (seq : BitVec 32) (sent : Bool)
  /-- this acknowledgement reaches the sender, and stays on the wire -/
  | ackIn (i : ℕ)
  /-- this segment reaches the receiver, and stays on the wire -/
  | arrive (i : ℕ) (alloc : Bool)
  | read (len : ℕ)
  | ackOut
  /-- options that the sender, or the receiver, reads -/
  | optionMss (mss : ℕ)
  | optionTimestamp
  | sackPermitted

/-- Acknowledgements carry `rcv_nxt`. -/
def ackOf (r : Receiver) : Ack :=
  ⟨r.given.length + (r.tcp.rcvNxt - r.tcp.rcvProcessed).toNat, r.tcp.rcvNxt⟩

/-- An acknowledgement takes the frames it covers off `tcpq_out`. -/
def release (s : OutSocket) (ackn : BitVec 32) : OutSocket :=
  { s with tcpqOut := TcpOutput.releaseAllUntil ackn s.tcpqOut.pool s.tcpqOut }

/-- The connection after a step; `none` for a frame that is not on the wire. -/
def step (c : Connection) : Act → Option Connection
  | .write buf alloc =>
    let (s, ret) := TcpOutput.write c.sender buf alloc
    some { c with sender := s, written := c.written ++ buf.take ret.toNat }
  | .output seq sndNxt window alloc sent =>
    some (picoTcpOutputTurn c seq sndNxt window alloc sent)
  | .retransmit seq sent => some (retransmit c seq sent)
  | .ackIn i => c.acks[i]?.map fun a => { c with sender := release c.sender a.ackn }
  | .arrive i alloc => c.wire[i]?.map fun p => { c with
      receiver := Reassembly.next c.receiver (.segment (.ofBytes p.seq p.payload) alloc) }
  | .read len => some { c with receiver := Reassembly.next c.receiver (.read len) }
  | .ackOut => some { c with
      receiver := Reassembly.next c.receiver .ack
      acks := c.acks ++ [ackOf c.receiver] }
  | .optionMss mss => some { c with sender.mss := min c.sender.mss mss }
  | .optionTimestamp => some { c with sender.tsOk := true }
  | .sackPermitted => some { c with receiver := Reassembly.next c.receiver .sackPermitted }

/-- After the handshake: `sndNxt` is the number of the SYN's end at the sender. -/
def connected (isIpv6 hasDev : Bool) (remotePort : ℕ) (sndNxt : BitVec 32) (maxSize : ℕ)
    (sackOk : Bool) : Connection where
  sender := TcpOutput.begin isIpv6 hasDev remotePort sndNxt
  written := []
  wire := []
  receiver := Reassembly.opened (sndNxt + 1) maxSize sackOk
  acks := []

/-- A frame that is sent now: if its number is 0, which `tcp_send` takes for no number, `snd_nxt` is 0
    too; and it is split only if no part of it is on the wire. -/
def Fresh (c : Connection) (seq sndNxt : BitVec 32) (window : ℕ) : Prop :=
  ∀ una ∈ c.sender.tcpqOut.pool.head?, ∀ f ∈ peekFrame c.sender.tcpqOut seq,
    (f.seq = 0 → sndNxt = 0) ∧
      (splits una f window → ∀ p ∈ c.wire, p.seq ≠ f.seq)

/-- This turn takes a frame apart. -/
def Splits (c : Connection) (seq : BitVec 32) (window : ℕ) : Prop :=
  ∃ una ∈ c.sender.tcpqOut.pool.head?, ∃ f ∈ peekFrame c.sender.tcpqOut seq, splits una f window

/-- What the applications, the network and the window may do.

    A write finds packets that have room for data, windows are as the scale option allows them, a
    segment arrives while it is within `2^30` bytes of what the application reads next. -/
def Sound (c : Connection) : Act → Prop
  | .write _ _ => Refused c.sender ∨ picoSocketXmitAvailSpace c.sender ≠ 0
  | .output seq sndNxt window _ _ => window < 2 ^ 30 ∧ Fresh c seq sndNxt window
  | .arrive i _ => ∀ p ∈ c.wire[i]?, c.receiver.given.length ≤ p.pos + 2 ^ 30 ∧
      p.pos + p.payload.length ≤ c.receiver.given.length + 2 ^ 30
  | .read len => len < 2 ^ 32
  | _ => True

instance Sound.decidable (c : Connection) : ∀ a, Decidable (Sound c a)
  | .write _ _ => inferInstanceAs (Decidable (_ ∨ _))
  | .output _ _ _ _ _ => inferInstanceAs (Decidable (_ ∧ ∀ una ∈ _, ∀ f ∈ _, _))
  | .arrive _ _ => inferInstanceAs (Decidable (∀ p ∈ _, _))
  | .read len => inferInstanceAs (Decidable (len < 2 ^ 32))
  | .retransmit _ _ | .ackIn _ | .ackOut | .optionMss _ | .optionTimestamp | .sackPermitted =>
    isTrue trivial

/-- The bytes are queued chunk after chunk. -/
inductive Pushes : OutSocket → List UInt8 → OutSocket → Prop where
  | done (s : OutSocket) : Pushes s [] s
  | push {s u : OutSocket} {data : List UInt8} {k : ℕ} (hpos : 0 < k) (hle : k ≤ data.length)
      (hshort : k < 2 ^ 16) (hwf : Wf (pushed s data k))
      (hrest : Pushes (pushed s data k) (data.drop k) u) : Pushes s data u

theorem pushed_take {s : OutSocket} {data : List UInt8} {k n : ℕ} (h : k ≤ n) :
    pushed s (data.take n) k = pushed s data k := by
  rw [pushed, pushed, TcpOutput.chunkFrame, TcpOutput.chunkFrame, List.take_take, min_eq_left h]

theorem picoSocketXmitLoop_pushes {space len : ℤ} {buf : List UInt8} (alloc : ℕ → Alloc)
    (hpos : 0 < space) (hlen : len ≤ buf.length) (n : ℕ) {s : OutSocket} {total : ℕ} (h : Wf s)
    (hspace : picoSocketXmitAvailSpace s = space) (hle : (total : ℤ) ≤ len) :
    ∃ s' k, picoSocketXmitLoop space buf len alloc n s total = (s', total + k) ∧
      ((total + k : ℕ) : ℤ) ≤ len ∧ Pushes s ((buf.drop total).take k) s' := by
  induction n generalizing s total with
  | zero => exact ⟨s, 0, rfl, hle, .done s⟩
  | succ n ih =>
    by_cases hlt : (total : ℤ) < len
    · obtain ⟨hc, hcpos, hcle⟩ := TcpOutput.chunkLen_spec total hpos hlt
      obtain ⟨htakes, hrefused⟩ :=
        TcpOutput.picoSocketXmitLoop_turn alloc total h hspace hpos hlt hlen n
      generalize TcpOutput.chunkLen space len total = k at *
      by_cases ht : TcpOutput.Takes s k (alloc total)
      · have hdrop : k ≤ (buf.drop total).length := by
          rw [List.length_drop]
          omega
        have hwf := h.pushed hcpos (by omega) hdrop ht
        obtain ⟨s', j, hrun, hjle, hrest⟩ := ih hwf hspace hcle
        have hover := h.space_le
        refine ⟨s', k + j, by rw [htakes ht, hrun, Nat.add_assoc], by omega, ?_⟩
        refine .push hcpos ?_ (by omega) ?_ ?_
        · rw [List.length_take]
          omega
        · rw [pushed_take (Nat.le_add_right k j)]
          exact hwf
        · rw [pushed_take (Nat.le_add_right k j), List.drop_take, List.drop_drop, Nat.add_sub_cancel_left]
          exact hrest
      · exact ⟨s, 0, hrefused ht, by omega, .done s⟩
    · refine ⟨s, 0, ?_, by omega, .done s⟩
      rw [picoSocketXmitLoop, if_neg hlt]
      rfl

theorem write_pushes {s : OutSocket} (h : Wf s) (buf : List UInt8) (alloc : ℕ → Alloc)
    (hc : Refused s ∨ picoSocketXmitAvailSpace s ≠ 0) :
    Pushes s (buf.take (TcpOutput.write s buf alloc).2.toNat) (TcpOutput.write s buf alloc).1 := by
  have hnone : ∀ ret : ℤ, ret ≤ 0 → Pushes s (buf.take ret.toNat) s := by
    intro ret hret
    rw [Int.toNat_of_nonpos hret]
    exact .done s
  rw [TcpOutput.write]
  by_cases hr : Refused s
  · rw [TcpOutput.picoSocketWrite_refused hr]
    exact hnone _ (by simp)
  rw [TcpOutput.picoSocketWrite_accepted hr, TcpOutput.picoSocketSendto]
  have hlen : CInt.toInt32 buf.length ≤ buf.length := TcpOutput.toInt32_le
  generalize CInt.toInt32 buf.length = len at hlen
  by_cases hzero : len = 0
  · rw [if_pos hzero]
    exact hnone _ le_rfl
  rw [if_neg hzero]
  by_cases hbad : len < 0 ∨ s.remotePort = 0
  · rw [if_pos hbad]
    exact hnone _ (by simp)
  rw [if_neg hbad, TcpOutput.picoSocketXmit]
  by_cases hneg : picoSocketXmitAvailSpace s < 0
  · rw [if_pos hneg]
    exact hnone _ (by simp)
  have hspace := hc.resolve_left hr
  have hstart : ((0 : ℕ) : ℤ) ≤ len := by omega
  obtain ⟨s', k, hrun, hk, hpush⟩ :=
    picoSocketXmitLoop_pushes alloc (by omega) hlen len.toNat h rfl hstart
  rw [if_neg hneg, hrun]
  rw [List.drop_zero] at hpush
  simpa using hpush

/-! The pieces of the stream in the queue -/

/-- What the receiver will see of a frame. -/
def frameOf (f : PicoFrame) : BitVec 32 × List UInt8 := (f.seq, f.payload)

/-- The number and the bytes of a piece. -/
def bytesOf (S : ℕ → UInt8) (b : BitVec 32) (p : Piece) : BitVec 32 × List UInt8 :=
  (adv b p.start, slice S p.start p.len)

/-- The pieces `ps` of a stream of `n` bytes are in the output queue. -/
structure Carries (S : ℕ → UInt8) (b : BitVec 32) (s : OutSocket) (n : ℕ) (ps : List Piece) : Prop where
  pool : s.tcpqOut.pool.map frameOf = ps.map (bytesOf S b)
  apart : Apart ps
  stop_le : ∀ p ∈ ps, p.stop ≤ n
  last : s.sndLast + 1 = adv b n
  near : ∀ p ∈ ps, n < p.start + 2 ^ 31
  short : ∀ p ∈ ps, p.len < 2 ^ 16

variable {S : ℕ → UInt8} {b : BitVec 32} {s u : OutSocket} {f : PicoFrame} {p : Piece}
  {ps : List Piece} {n k : ℕ}

/-- The number of a byte less than `2^32` further on. -/
theorem adv_sub {x y : ℕ} (hle : x ≤ y) (hlt : y < x + 2 ^ 32) :
    (adv b y - adv b x).toNat = y - x := by
  obtain ⟨d, rfl⟩ := Nat.exists_eq_add_of_le hle
  rw [← adv_adv, adv_sub_toNat _ (by omega), Nat.add_sub_cancel_left]

/-- The queue spans less than `2^31` bytes. -/
theorem near_of_wf (hwf : Wf s) (hlast : s.sndLast + 1 = adv b n) (hf : f ∈ s.tcpqOut.pool)
    (hseq : f.seq = adv b k) (hle : k ≤ n) (hlt : n < k + 2 ^ 32) : n < k + 2 ^ 31 := by
  obtain ⟨a, m, hl, hend⟩ := hwf.laid
  have hm := hwf.end_lt hl
  obtain ⟨j, -, hj, -, hjm⟩ := hl.mem f hf
  have hdist : (adv a m - adv a j).toNat = m - j := adv_sub (by omega) (by omega)
  rw [← hend, ← hj, hlast, hseq, adv_sub hle hlt] at hdist
  omega

theorem Carries.frame (h : Carries S b s n ps) (hf : f ∈ s.tcpqOut.pool) :
    ∃ p ∈ ps, f.seq = adv b p.start ∧ f.payload = slice S p.start p.len := by
  have hmem : frameOf f ∈ s.tcpqOut.pool.map frameOf := List.mem_map_of_mem hf
  rw [h.pool] at hmem
  obtain ⟨p, hp, heq⟩ := List.mem_map.mp hmem
  rw [bytesOf, frameOf, Prod.mk.injEq] at heq
  exact ⟨p, hp, heq.1.symm, heq.2.symm⟩

/-- The pieces are near the end of the stream because the queue is short. -/
theorem near_of_pool (hwf : Wf s) (hpool : s.tcpqOut.pool.map frameOf = ps.map (bytesOf S b))
    (hlast : s.sndLast + 1 = adv b n) (hstop : ∀ p ∈ ps, p.stop ≤ n)
    (hlt : ∀ p ∈ ps, n < p.start + 2 ^ 32) : ∀ p ∈ ps, n < p.start + 2 ^ 31 := by
  intro p hp
  have hplt := p.lt
  have hle := hstop p hp
  have hmem : bytesOf S b p ∈ ps.map (bytesOf S b) := List.mem_map_of_mem hp
  rw [← hpool] at hmem
  obtain ⟨f, hf, heq⟩ := List.mem_map.mp hmem
  rw [bytesOf, frameOf, Prod.mk.injEq] at heq
  exact near_of_wf hwf hlast hf heq.1 (by omega) (hlt p hp)

/-- One chunk of the stream is queued. -/
theorem Carries.pushed (h : Carries S b s n ps) {data : List UInt8} {q : Piece} (hstart : q.start = n)
    (hle : q.len ≤ data.length) (hshort : q.len < 2 ^ 16) (hwf : Wf (TcpOutput.pushed s data q.len))
    (hS : data.take q.len = slice S n q.len) :
    Carries S b (TcpOutput.pushed s data q.len) (n + q.len) (ps ++ [q]) := by
  have hlen := q.start_add_len
  have hmem : ∀ p ∈ ps ++ [q], p ∈ ps ∨ p = q := by simp
  have hpool : (TcpOutput.pushed s data q.len).tcpqOut.pool.map frameOf =
      (ps ++ [q]).map (bytesOf S b) := by
    have hchunk : frameOf (TcpOutput.chunkFrame s data q.len) = bytesOf S b q := by
      rw [frameOf, bytesOf, TcpOutput.chunkFrame, hS, h.last, hstart]
    rw [List.map_append, ← h.pool, List.map_singleton, ← hchunk, TcpOutput.pushed, List.map_append,
      List.map_singleton]
  have hlast : (TcpOutput.pushed s data q.len).sndLast + 1 = adv b (n + q.len) := by
    rw [← adv_adv, ← h.last, TcpOutput.pushed, adv]
    simp only
    rw [BitVec.add_assoc, BitVec.add_assoc, BitVec.add_comm 1]
  have hstop : ∀ p ∈ ps ++ [q], p.stop ≤ n + q.len := by
    intro p hp
    rcases hmem p hp with hp | rfl
    · have := h.stop_le p hp
      omega
    · omega
  refine ⟨hpool, ?_, hstop, hlast, near_of_pool hwf hpool hlast hstop ?_, ?_⟩
  · refine List.pairwise_append.mpr ⟨h.apart, List.pairwise_singleton .., ?_⟩
    intro p hp r hr
    rw [List.mem_singleton.mp hr, hstart]
    exact h.stop_le p hp
  · intro p hp
    rcases hmem p hp with hp | rfl
    · have := h.near p hp
      omega
    · omega
  · intro p hp
    rcases hmem p hp with hp | rfl
    · exact h.short p hp
    · exact hshort

/-- WRITE: what is accepted goes to the end of the queue. -/
theorem Carries.pushes {data : List UInt8} (hpush : Pushes s data u) (h : Carries S b s n ps)
    (hS : data = slice S n data.length) :
    ∃ qs, Carries S b u (n + data.length) (ps ++ qs) ∧ Follow n qs (n + data.length) := by
  induction hpush generalizing n ps with
  | done s => exact ⟨[], by simpa using h, rfl⟩
  | @push s u data k hpos hle hshort hwf _ ih =>
    obtain ⟨q, hstart, rfl⟩ : ∃ q : Piece, q.start = n ∧ q.len = k :=
      ⟨⟨n, n + k, by omega⟩, rfl, Nat.add_sub_cancel_left ..⟩
    have htake : data.take q.len = slice S n q.len := by
      rw [hS, take_slice hle]
    have hdrop : data.drop q.len = slice S (n + q.len) (data.drop q.len).length := by
      rw [List.length_drop, ← drop_slice, ← hS]
    obtain ⟨qs, hqs, hfollow⟩ := ih (h.pushed hstart hle hshort hwf htake) hdrop
    have hsum : n + q.len + (data.drop q.len).length = n + data.length := by
      rw [List.length_drop]
      omega
    rw [hsum, List.append_assoc] at hqs
    rw [hsum, ← hstart, q.start_add_len] at hfollow
    exact ⟨_, hqs, hstart, hstart ▸ hfollow⟩

/-- The first piece is released. -/
theorem Carries.discard_head (h : Carries S b s n ps) {fs : List PicoFrame}
    (hp : s.tcpqOut.pool = f :: fs) :
    ∃ p qs, ps = p :: qs ∧ f.seq = adv b p.start ∧ f.payload = slice S p.start p.len ∧
      Carries S b { s with tcpqOut := TcpOutput.picoDiscardSegment s.tcpqOut f } n qs := by
  have hpool := h.pool
  rw [hp, List.map_cons] at hpool
  cases ps with
  | nil => cases hpool
  | cons p qs =>
    rw [List.map_cons, List.cons.injEq, frameOf, bytesOf, Prod.mk.injEq] at hpool
    have hsub : ∀ q ∈ qs, q ∈ p :: qs := fun q hq => List.mem_cons_of_mem p hq
    refine ⟨p, qs, rfl, hpool.1.1, hpool.1.2, ?_, (List.pairwise_cons.mp h.apart).2,
      fun q hq => h.stop_le q (hsub q hq), h.last, fun q hq => h.near q (hsub q hq),
      fun q hq => h.short q (hsub q hq)⟩
    rw [TcpOutput.picoDiscardSegment_head hp]
    exact hpool.2

/-- ACK: pieces go from the front, each of which ends at the number or before it. -/
theorem Carries.release (ackn : BitVec 32) (fs : List PicoFrame) (h : Carries S b s n ps)
    (hp : s.tcpqOut.pool = fs) :
    ∃ qs rs, ps = qs ++ rs ∧ (∀ q ∈ qs, picoSeqCompare (adv b q.stop) ackn ≤ 0) ∧
      Carries S b { s with tcpqOut := TcpOutput.releaseAllUntil ackn fs s.tcpqOut } n rs := by
  induction fs generalizing s ps with
  | nil => exact ⟨[], ps, rfl, by simp, h⟩
  | cons f fs ih =>
    rw [TcpOutput.releaseAllUntil]
    split
    · rename_i hle
      obtain ⟨p, qs, rfl, hseq, hpay, hrest⟩ := h.discard_head hp
      obtain ⟨rs, ts, rfl, hrs, hts⟩ := ih hrest (by rw [TcpOutput.picoDiscardSegment_head hp])
      refine ⟨p :: rs, ts, rfl, ?_, hts⟩
      intro q hq
      rcases List.mem_cons.mp hq with rfl | hq
      · rwa [hseq, hpay, length_slice, adv_adv, q.start_add_len] at hle
      · exact hrs q hq
    · exact ⟨[], ps, rfl, by simp, h⟩

/-- SPLIT: the frame gives way to its second part, or to nothing. -/
theorem tcpSplitSegment_pool (hwf : Wf s) {pre post : List PicoFrame}
    (hp : s.tcpqOut.pool = pre ++ f :: post) {size : ℕ} (hsize : size < f.payload.length)
    {alloc : Alloc} (halloc : alloc.frame) :
    (TcpOutput.tcpSplitSegment s f size alloc).sndLast = s.sndLast ∧
      ((TcpOutput.tcpSplitSegment s f size alloc).tcpqOut.pool = pre ++ post ∨
        ∃ g, frameOf g = (adv f.seq size, f.payload.drop size) ∧
          (TcpOutput.tcpSplitSegment s f size alloc).tcpqOut.pool = pre ++ g :: post) := by
  have hsplit : ¬ (f.payload.length ≤ size ∨ ¬ alloc.frame) := by
    rintro (hle | hnone)
    · omega
    · exact hnone halloc
  rw [TcpOutput.tcpSplitSegment, if_neg hsplit]
  refine ⟨rfl, ?_⟩
  obtain ⟨a, m, hl, -⟩ := hwf.laid
  have hm := hwf.end_lt hl
  rw [hp] at hl
  obtain ⟨j, -, haround⟩ := hl.around
  have hend := haround.end_le
  have hdiscard := TcpOutput.picoDiscardSegment_around hp haround hm
  generalize TcpOutput.picoDiscardSegment s.tcpqOut f = tq at hdiscard
  generalize hg : (⟨adv f.seq size, f.payload.drop size,
    TcpOutput.frameBufferLen s (f.payload.length - size + TcpOutput.picoTcpOverhead s)⟩ :
      PicoFrame) = g
  have hseq : g.seq = adv a (j + size) := by
    rw [← hg, haround.seq, adv_adv]
  have hpost : ∀ x ∈ post, picoSeqCompare g.seq x.seq < 0 := by
    intro x hx
    obtain ⟨i, hi, hlo, hhi⟩ := haround.after x hx
    rw [hseq, hi, picoSeqCompare_adv a (by omega) (by omega)]
    omega
  have hpre : ∀ x ∈ pre, ¬ picoSeqCompare g.seq x.seq < 0 := by
    intro x hx
    obtain ⟨i, hi, hlt⟩ := haround.before x hx
    rw [hseq, hi, picoSeqCompare_adv a (by omega) (by omega)]
    omega
  simp only
  rcases TcpOutput.picoEnqueueSegment_cases tq g alloc.node with hq | ⟨-, hq⟩
  · rw [hq, hdiscard]
    exact .inl rfl
  · refine .inr ⟨g, by rw [← hg, frameOf], ?_⟩
    rw [hq, hdiscard]
    exact insertSeq_between hpre hpost

/-- The pieces of the frames before a frame, its own, and those of the frames behind it. -/
theorem Carries.split_at (h : Carries S b s n ps) {pre post : List PicoFrame}
    (hp : s.tcpqOut.pool = pre ++ f :: post) :
    ∃ qs p rs, ps = qs ++ p :: rs ∧ pre.map frameOf = qs.map (bytesOf S b) ∧
      frameOf f = bytesOf S b p ∧ post.map frameOf = rs.map (bytesOf S b) := by
  have hpool := h.pool
  rw [hp, List.map_append, List.map_cons] at hpool
  obtain ⟨qs, ts, rfl, hqs, hts⟩ := List.map_eq_append_iff.mp hpool.symm
  obtain ⟨p, rs, rfl, hp, hrs⟩ := List.map_eq_cons_iff.mp hts
  exact ⟨qs, p, rs, rfl, hqs.symm, hp.symm, hrs.symm⟩

/-- Other pieces in the queue, none of which is new. -/
theorem Carries.of_pool {qs : List Piece} (h : Carries S b s n ps)
    (hpool : u.tcpqOut.pool.map frameOf = qs.map (bytesOf S b)) (hlast : u.sndLast = s.sndLast)
    (hapart : Apart qs) (hinside : ∀ q ∈ qs, ∃ p ∈ ps, p.start ≤ q.start ∧ q.stop ≤ p.stop) :
    Carries S b u n qs := by
  refine ⟨hpool, hapart, ?_, by rw [hlast]; exact h.last, ?_, ?_⟩
  · intro q hq
    obtain ⟨p, hp, -, hstop⟩ := hinside q hq
    exact hstop.trans (h.stop_le p hp)
  · intro q hq
    obtain ⟨p, hp, hstart, -⟩ := hinside q hq
    have := h.near p hp
    omega
  · intro q hq
    obtain ⟨p, hp, hstart, hstop⟩ := hinside q hq
    have := h.short p hp
    rw [Piece.len] at this ⊢
    omega

/-- The same queue in a socket that differs elsewhere. -/
theorem Carries.of_queue (h : Carries S b s n ps) (hq : u.tcpqOut = s.tcpqOut)
    (hlast : u.sndLast = s.sndLast) : Carries S b u n ps :=
  ⟨by rw [hq]; exact h.pool, h.apart, h.stop_le, by rw [hlast]; exact h.last, h.near, h.short⟩

theorem apart_replace {qs rs : List Piece} {q : Piece} (h : Apart (qs ++ p :: rs))
    (hstart : p.start ≤ q.start) (hstop : q.stop = p.stop) : Apart (qs ++ q :: rs) := by
  obtain ⟨hqs, hprs, hcross⟩ := List.pairwise_append.mp h
  obtain ⟨hp, hrs⟩ := List.pairwise_cons.mp hprs
  refine List.pairwise_append.mpr ⟨hqs, List.pairwise_cons.mpr ⟨?_, hrs⟩, ?_⟩
  · intro r hr
    rw [hstop]
    exact hp r hr
  · intro x hx y hy
    rcases List.mem_cons.mp hy with rfl | hy
    · exact (hcross x hx p (List.mem_cons_self ..)).trans hstart
    · exact hcross x hx y (List.mem_cons_of_mem p hy)

/-- SPLIT: the second part of the piece is in the queue instead of it, or not even that. -/
theorem Carries.tcpSplitSegment (h : Carries S b s n ps) (hwf : Wf s) {pre post : List PicoFrame}
    (hp : s.tcpqOut.pool = pre ++ f :: post) {size : ℕ} (hsize : size < f.payload.length)
    {alloc : Alloc} (halloc : alloc.frame) :
    ∃ p ∈ ps, frameOf f = bytesOf S b p ∧
      ∃ qs, Carries S b (TcpOutput.tcpSplitSegment s f size alloc) n qs ∧
        ∀ q ∈ qs, q ∈ ps ∧ (q.stop ≤ p.start ∨ p.stop ≤ q.start) ∨
          q.start = p.start + size ∧ q.stop = p.stop := by
  obtain ⟨qs, p, rs, rfl, hqs, hfp, hrs⟩ := h.split_at hp
  refine ⟨p, by simp, hfp, ?_⟩
  have hplen := p.start_add_len
  obtain ⟨hlast, hpool⟩ := tcpSplitSegment_pool hwf hp hsize halloc
  have hold := hfp
  rw [frameOf, bytesOf, Prod.mk.injEq] at hold
  rw [hold.2, length_slice] at hsize
  obtain ⟨-, hprs, hcross⟩ := List.pairwise_append.mp h.apart
  have hother : ∀ q ∈ qs ++ rs, q ∈ qs ++ p :: rs ∧ (q.stop ≤ p.start ∨ p.stop ≤ q.start) := by
    intro q hq
    rcases List.mem_append.mp hq with hq | hq
    · exact ⟨List.mem_append_left _ hq, .inl (hcross q hq p (List.mem_cons_self ..))⟩
    · exact ⟨List.mem_append_right _ (List.mem_cons_of_mem p hq),
        .inr ((List.pairwise_cons.mp hprs).1 q hq)⟩
  rcases hpool with hpool | ⟨g, hg, hpool⟩
  · have hsub : (qs ++ rs).Sublist (qs ++ p :: rs) :=
      (List.Sublist.refl qs).append (List.sublist_cons_self p rs)
    refine ⟨qs ++ rs, h.of_pool ?_ hlast (h.apart.sublist hsub) ?_, fun q hq => .inl (hother q hq)⟩
    · rw [hpool, List.map_append, hqs, hrs, List.map_append]
    · exact fun q hq => ⟨q, hsub.subset hq, le_rfl, le_rfl⟩
  · obtain ⟨q, hstart, hstop⟩ : ∃ q : Piece, q.start = p.start + size ∧ q.stop = p.stop :=
      ⟨⟨p.start + size, p.stop, by omega⟩, rfl, rfl⟩
    have hgq : frameOf g = bytesOf S b q := by
      rw [hg, bytesOf, hold.1, hold.2, adv_adv, hstart, drop_slice, Piece.len, Piece.len, hstart, hstop,
        Nat.sub_sub]
    have hmem : ∀ x ∈ qs ++ q :: rs, x ∈ qs ++ rs ∨ x = q := by
      intro x hx
      rcases List.mem_append.mp hx with hx | hx
      · exact .inl (List.mem_append_left _ hx)
      · rcases List.mem_cons.mp hx with rfl | hx
        · exact .inr rfl
        · exact .inl (List.mem_append_right _ hx)
    refine ⟨qs ++ q :: rs, h.of_pool ?_ hlast (apart_replace h.apart (by omega) hstop) ?_, ?_⟩
    · rw [hpool, List.map_append, List.map_cons, hqs, hgq, hrs, List.map_append, List.map_cons]
    · intro x hx
      rcases hmem x hx with hx | rfl
      · exact ⟨x, (hother x hx).1, le_rfl, le_rfl⟩
      · exact ⟨p, by simp, by omega, hstop.le⟩
    · intro x hx
      rcases hmem x hx with hx | rfl
      · exact .inl (hother x hx)
      · exact .inr ⟨hstart, hstop⟩

/-! Both sides and the wire -/

/-- The piece as it is on the wire. -/
def packet (S : ℕ → UInt8) (b : BitVec 32) (p : Piece) : Packet :=
  ⟨p.start, adv b p.start, slice S p.start p.len⟩

/-- The pieces `ps` are in the queue of the sender and `ws` on the wire. No two of them overlap, and
    the receiver has got pieces from the wire. -/
structure Inv (S : ℕ → UInt8) (b : BitVec 32) (c : Connection) (ps ws : List Piece) : Prop where
  wf : Wf c.sender
  carries : Carries S b c.sender c.written.length ps
  wire : c.wire = ws.map (packet S b)
  sent : ∀ w ∈ ws, w.stop ≤ c.written.length
  short : ∀ w ∈ ws, w.len < 2 ^ 16
  separate : ∀ w ∈ ws, ∀ v ∈ ws, Separate w v
  beside : ∀ q ∈ ps, ∀ w ∈ ws, Separate q w
  received : ∃ rs, Reassembly.Inv S b {w | w ∈ ws} c.receiver rs

variable {c d : Connection} {ws : List Piece}

theorem received_mono {F G : Set Piece} {r : Receiver} {rs : List Piece} (hsub : F ⊆ G)
    (h : Reassembly.Inv S b F r rs) : Reassembly.Inv S b G r rs :=
  ⟨h.holds, fun p hp => hsub (h.mem p hp), h.given_eq, h.nxt, h.sacks, h.told⟩

theorem position_eq (h : c.sender.sndLast + 1 = adv b c.written.length) (hle : k ≤ c.written.length)
    (hlt : c.written.length < k + 2 ^ 31) : position c (adv b k) = k := by
  rw [position, h, adv_sub hle (by omega)]
  omega

/-- SEND: a piece beside the others goes on the wire. -/
theorem Inv.transmit (h : Inv S b c ps ws) (hw : ∀ w ∈ ws, Separate p w)
    (hq : ∀ q ∈ ps, Separate q p) (hstop : p.stop ≤ c.written.length)
    (hnear : c.written.length < p.start + 2 ^ 31) (hshort : p.len < 2 ^ 16) (sent : Bool) :
    ∃ vs, Inv S b (Transfer.transmit c (adv b p.start) (slice S p.start p.len) sent) ps vs := by
  cases sent with
  | false => exact ⟨ws, h⟩
  | true =>
    have hplt := p.lt
    have hmem : ∀ w ∈ ws ++ [p], w ∈ ws ∨ w = p := by simp
    refine ⟨ws ++ [p], h.wf, h.carries, ?_, ?_, ?_, ?_, ?_, ?_⟩
    · rw [Transfer.transmit, if_pos rfl, position_eq h.carries.last (by omega) hnear, h.wire,
        List.map_append]
      rfl
    · intro w hw
      rcases hmem w hw with hw | rfl
      · exact h.sent w hw
      · exact hstop
    · intro w hw
      rcases hmem w hw with hw | rfl
      · exact h.short w hw
      · exact hshort
    · intro x hx y hy
      rcases hmem x hx with hxs | rfl
      · rcases hmem y hy with hys | rfl
        · exact h.separate x hxs y hys
        · exact (hw x hxs).symm
      · rcases hmem y hy with hys | rfl
        · exact hw y hys
        · exact .inl rfl
    · intro q hq' w hw'
      rcases hmem w hw' with hw' | rfl
      · exact h.beside q hq' w hw'
      · exact hq q hq'
    · obtain ⟨rs, hrs⟩ := h.received
      refine ⟨rs, received_mono ?_ hrs⟩
      intro w hw
      exact List.mem_append_left [p] hw

/-- A whole frame of the queue is sent. -/
theorem Inv.transmit_frame (h : Inv S b c ps ws) (hf : f ∈ c.sender.tcpqOut.pool) (sent : Bool) :
    ∃ vs, Inv S b (Transfer.transmit c f.seq f.payload sent) ps vs := by
  obtain ⟨p, hp, hseq, hpay⟩ := h.carries.frame hf
  rw [hseq, hpay]
  exact h.transmit (h.beside p hp) (fun q hq => h.carries.apart.separate hq hp)
    (h.carries.stop_le p hp) (h.carries.near p hp) (h.carries.short p hp) sent

/-- A frame that has its number, or gets the one that it has. -/
theorem tcpSend_eq {sndNxt : BitVec 32} (hf : f.seq = 0 → sndNxt = 0) (sent : Bool) :
    tcpSend c f sndNxt sent = transmit c f.seq f.payload sent := by
  rw [tcpSend]
  split
  · rename_i hzero
    have hsame : (c.sender.tcpqOut.pool.map fun g => if g = f then { g with seq := sndNxt } else g) =
        c.sender.tcpqOut.pool := by
      refine List.map_id'' ?_ _
      intro g
      split
      · rename_i hg
        subst hg
        rw [hf hzero, ← hzero]
      · rfl
    simp only [hsame]
    rw [hf hzero, hzero]
  · rfl

/-- The sender's queue is another one, with pieces beside those on the wire. -/
theorem Inv.of_sender (h : Inv S b c ps ws) {qs : List Piece} (hwf : Wf u)
    (hcarries : Carries S b u c.written.length qs) (hbeside : ∀ q ∈ qs, ∀ w ∈ ws, Separate q w) :
    Inv S b { c with sender := u } qs ws :=
  ⟨hwf, hcarries, h.wire, h.sent, h.short, h.separate, hbeside, h.received⟩

/-- A piece that is not on the wire keeps its parts off the pieces there. -/
theorem separate_part {q w : Piece} (h : Separate p w) (hne : p ≠ w) (hstart : p.start ≤ q.start)
    (hstop : q.stop ≤ p.stop) : Separate q w := by
  rcases h with rfl | h | h
  · exact absurd rfl hne
  · exact .inr (.inl (hstop.trans h))
  · exact .inr (.inr (h.trans hstart))

/-- OUTPUT, a split: nothing of the frame was sent, and now its first part is. -/
theorem Inv.split (h : Inv S b c ps ws) {pre post : List PicoFrame}
    (hp : c.sender.tcpqOut.pool = pre ++ f :: post) {size : ℕ} (hsize : size < f.payload.length)
    {alloc : Alloc} (halloc : alloc.frame)
    (hwf : Wf (TcpOutput.tcpSplitSegment c.sender f size alloc))
    (hunsent : ∀ p ∈ c.wire, p.seq ≠ f.seq) (sent : Bool) :
    ∃ qs, Inv S b { c with sender := TcpOutput.tcpSplitSegment c.sender f size alloc } qs ws ∧
      (0 < size → ∃ vs, Inv S b (Transfer.transmit
        { c with sender := TcpOutput.tcpSplitSegment c.sender f size alloc } f.seq
        (f.payload.take size) sent) qs vs) := by
  obtain ⟨p, hpps, hfp, qs, hqs, hparts⟩ := h.carries.tcpSplitSegment h.wf hp hsize halloc
  rw [frameOf, bytesOf, Prod.mk.injEq] at hfp
  have hplen := p.start_add_len
  rw [hfp.2, length_slice] at hsize
  have hne : ∀ w ∈ ws, p ≠ w := by
    rintro w hw rfl
    refine hunsent (packet S b p) ?_ hfp.1.symm
    rw [h.wire]
    exact List.mem_map_of_mem hw
  have hnext : Inv S b { c with sender := TcpOutput.tcpSplitSegment c.sender f size alloc } qs ws := by
    refine h.of_sender hwf hqs ?_
    intro q hq w hw
    rcases hparts q hq with ⟨hqps, -⟩ | ⟨hstart, hstop⟩
    · exact h.beside q hqps w hw
    · exact separate_part (h.beside p hpps w hw) (hne w hw) (by omega) hstop.le
  refine ⟨qs, hnext, ?_⟩
  intro hpos
  obtain ⟨x, hstart, hstop⟩ : ∃ x : Piece, x.start = p.start ∧ x.stop = p.start + size :=
    ⟨⟨p.start, p.start + size, by omega⟩, rfl, rfl⟩
  have hxlen : x.len = size := by
    rw [Piece.len]
    omega
  have hnear := h.carries.near p hpps
  have hshort := h.carries.short p hpps
  have hinside := h.carries.stop_le p hpps
  have htake : f.payload.take size = slice S x.start x.len := by
    rw [hfp.2, take_slice hsize.le, hstart, hxlen]
  rw [htake, hfp.1, ← hstart]
  refine hnext.transmit ?_ ?_ ?_ ?_ (by omega) sent
  · intro w hw
    exact separate_part (h.beside p hpps w hw) (hne w hw) hstart.ge (by omega)
  · intro q hq
    rcases hparts q hq with ⟨-, hbeside⟩ | ⟨hqstart, -⟩
    · rcases hbeside with hle | hle
      · exact .inr (.inl (by omega))
      · exact .inr (.inr (by omega))
    · exact .inr (.inr (by omega))
  · simp only
    omega
  · simp only
    omega

theorem Fresh.number {seq sndNxt : BitVec 32} {window : ℕ} (h : Fresh c seq sndNxt window) :
    ∀ f ∈ peekFrame c.sender.tcpqOut seq, f.seq = 0 → sndNxt = 0 := by
  intro f hf
  have hne : c.sender.tcpqOut.pool ≠ [] := List.ne_nil_of_mem (List.mem_of_find?_eq_some hf)
  exact (h _ (List.head?_eq_some_head hne) f hf).1

theorem transmit_sender (c : Connection) (seq : BitVec 32) (payload : List UInt8) (sent : Bool) :
    (transmit c seq payload sent).sender = c.sender := by
  cases sent <;> rfl

/-- A turn of `pico_tcp_output`, and what it does to the queue: it sends nothing, a frame of the queue,
    or takes a frame apart and sends its first part, unless that is empty. -/
theorem picoTcpOutputTurn_cases {seq sndNxt : BitVec 32} {window : ℕ}
    (hfresh : ∀ f ∈ peekFrame c.sender.tcpqOut seq, f.seq = 0 → sndNxt = 0) (alloc : Alloc)
    (sent : Bool) :
    let queue := TcpOutput.picoTcpOutputTurn c.sender seq window alloc
    let turn := picoTcpOutputTurn c seq sndNxt window alloc sent
    queue = c.sender ∧ turn = c ∨
      queue = c.sender ∧ (∃ f ∈ c.sender.tcpqOut.pool, turn = transmit c f.seq f.payload sent) ∨
      ∃ una ∈ c.sender.tcpqOut.pool.head?, ∃ f ∈ peekFrame c.sender.tcpqOut seq,
        splits una f window ∧ alloc.frame ∧
        queue = TcpOutput.tcpSplitSegment c.sender f (toUint16 window) alloc ∧
        (turn = { c with sender := queue } ∨ 0 < toUint16 window ∧
          turn = transmit { c with sender := queue } f.seq (f.payload.take (toUint16 window)) sent) := by
  rw [picoTcpOutputTurn, TcpOutput.picoTcpOutputTurn]
  cases c.sender.tcpqOut.pool.head? with
  | none => exact .inl ⟨rfl, rfl⟩
  | some una =>
  cases hf : peekFrame c.sender.tcpqOut seq with
  | none => exact .inl ⟨rfl, rfl⟩
  | some f =>
  have hzero := hfresh f hf
  have hmem : f ∈ c.sender.tcpqOut.pool := List.mem_of_find?_eq_some hf
  simp only
  by_cases hord : picoSeqCompare f.seq una.seq < 0
  · rw [if_pos hord, if_pos hord]
    exact .inl ⟨rfl, rfl⟩
  rw [if_neg hord, if_neg hord]
  by_cases hroom : window ≤ toUint32 (picoSeqCompare f.seq una.seq)
  · rw [if_pos hroom, if_pos hroom]
    exact .inl ⟨rfl, rfl⟩
  rw [if_neg hroom, if_neg hroom]
  by_cases hsmall : window < toUint32 (picoSeqCompare f.seq una.seq + f.payload.length)
  · rw [if_pos hsmall, if_pos hsmall, splitFirst]
    by_cases hwhole : f.payload.length ≤ toUint16 window
    · -- only what lies before the frame makes the window too small, and it goes out whole
      have hkeep : TcpOutput.tcpSplitSegment c.sender f (toUint16 window) alloc = c.sender := by
        rw [TcpOutput.tcpSplitSegment, if_pos (.inl hwhole)]
      rw [if_pos hwhole, hkeep]
      simp only
      split
      · exact .inl ⟨trivial, rfl⟩
      · exact .inr (.inl ⟨trivial, f, hmem, tcpSend_eq hzero sent⟩)
    rw [if_neg hwhole]
    by_cases hmemory : ¬ alloc.frame
    · rw [if_pos hmemory, TcpOutput.tcpSplitSegment, if_pos (.inr hmemory)]
      exact .inl ⟨rfl, rfl⟩
    rw [if_neg hmemory]
    refine .inr (.inr ⟨una, rfl, f, rfl, decide_eq_true ⟨hsmall, not_le.mp hwhole⟩,
      not_not.mp hmemory, rfl, ?_⟩)
    simp only
    split
    · exact .inl rfl
    · rename_i hpay
      refine .inr ⟨Nat.pos_of_ne_zero fun habs => hpay ?_, tcpSend_eq (by exact hzero) sent⟩
      rw [habs, List.take_zero]
  · rw [if_neg hsmall, if_neg hsmall]
    exact .inr (.inl ⟨rfl, f, hmem, tcpSend_eq hzero sent⟩)

/-- Sending leaves the sender's queue as `TcpOutput.picoTcpOutputTurn` does. -/
theorem picoTcpOutputTurn_sender {seq sndNxt : BitVec 32} {window : ℕ}
    (hfresh : ∀ f ∈ peekFrame c.sender.tcpqOut seq, f.seq = 0 → sndNxt = 0) (alloc : Alloc)
    (sent : Bool) : (picoTcpOutputTurn c seq sndNxt window alloc sent).sender =
      TcpOutput.picoTcpOutputTurn c.sender seq window alloc := by
  rcases picoTcpOutputTurn_cases hfresh alloc sent with ⟨hqueue, hturn⟩ |
    ⟨hqueue, f, -, hturn⟩ | ⟨-, -, f, -, -, -, -, hturn | ⟨-, hturn⟩⟩
  · rw [hturn, hqueue]
  · rw [hturn, hqueue, transmit_sender]
  · rw [hturn]
  · rw [hturn, transmit_sender]

/-- OUTPUT: a frame that is sent whole, or the first part of one of which nothing was sent. -/
theorem Inv.output (h : Inv S b c ps ws) {seq sndNxt : BitVec 32} {window : ℕ}
    (hwindow : window < 2 ^ 30) (hfresh : Fresh c seq sndNxt window) (alloc : Alloc) (sent : Bool) :
    ∃ qs vs, Inv S b (picoTcpOutputTurn c seq sndNxt window alloc sent) qs vs ∧
      (qs = ps ∨ Splits c seq window) := by
  have hwf := h.wf.picoTcpOutputTurn seq hwindow alloc
  rcases picoTcpOutputTurn_cases hfresh.number alloc sent with ⟨-, hturn⟩ | ⟨-, f, hf, hturn⟩ |
    ⟨una, huna, f, hf, hsplits, hmemory, hqueue, hturn⟩
  · exact ⟨ps, ws, by rwa [hturn], .inl rfl⟩
  · obtain ⟨vs, hvs⟩ := h.transmit_frame hf sent
    exact ⟨ps, vs, by rwa [hturn], .inl rfl⟩
  · obtain ⟨-, pre, post, hpool, -⟩ := List.find?_eq_some_iff_append.mp hf
    have hsize : toUint16 window < f.payload.length := (of_decide_eq_true hsplits).2
    rw [hqueue] at hwf hturn
    obtain ⟨qs, hqs, hfirst⟩ :=
      h.split hpool hsize hmemory hwf ((hfresh una huna f hf).2 hsplits) sent
    rcases hturn with hturn | ⟨hpos, hturn⟩
    · exact ⟨qs, ws, by rwa [hturn], .inr ⟨una, huna, f, hf, hsplits⟩⟩
    · obtain ⟨vs, hvs⟩ := hfirst hpos
      exact ⟨qs, vs, by rwa [hturn], .inr ⟨una, huna, f, hf, hsplits⟩⟩

/-- Sending changes neither what was written nor the receiver. -/
def SameEnds (c d : Connection) : Prop :=
  d.written = c.written ∧ d.receiver = c.receiver ∧ d.acks = c.acks

theorem transmit_frame {seq : BitVec 32} {payload : List UInt8} {sent : Bool} :
    SameEnds c (transmit c seq payload sent) := by
  cases sent <;> exact ⟨rfl, rfl, rfl⟩

theorem tcpSend_frame {sndNxt : BitVec 32} {sent : Bool} :
    SameEnds c (tcpSend c f sndNxt sent) := by
  rw [tcpSend]
  split
  · exact transmit_frame (c := { c with sender := _ })
  · exact transmit_frame

theorem picoTcpOutputTurn_frame (c : Connection) (seq sndNxt : BitVec 32) (window : ℕ)
    (alloc : Alloc) (sent : Bool) :
    SameEnds c (picoTcpOutputTurn c seq sndNxt window alloc sent) := by
  have hsame : SameEnds c c := ⟨rfl, rfl, rfl⟩
  rw [picoTcpOutputTurn]
  split
  · simp only
    split
    · exact hsame
    · split
      · exact hsame
      · split
        · split
          · exact hsame
          · split
            · exact ⟨rfl, rfl, rfl⟩
            · exact tcpSend_frame (c := { c with sender := _ })
        · exact tcpSend_frame
  · exact hsame

theorem retransmit_frame (c : Connection) (seq : BitVec 32) (sent : Bool) :
    SameEnds c (retransmit c seq sent) := by
  rw [retransmit]
  split
  · exact ⟨rfl, rfl, rfl⟩
  · exact transmit_frame

/-- A stream that goes on from what was written now goes on from what was written before. -/
theorem slice_split {l data : List UInt8} (h : l ++ data = slice S 0 (l ++ data).length) :
    l = slice S 0 l.length ∧ data = slice S l.length data.length := by
  rw [List.length_append, ← slice_append] at h
  obtain ⟨hold, hnew⟩ := List.append_inj h (by rw [length_slice])
  rw [Nat.zero_add] at hnew
  exact ⟨hold, hnew⟩

/-- WRITE: pieces that nobody knows yet follow those in the queue. -/
theorem Inv.write (h : Inv S b c ps ws) (buf : List UInt8) (alloc : ℕ → Alloc)
    (hc : Refused c.sender ∨ picoSocketXmitAvailSpace c.sender ≠ 0)
    (hd : step c (.write buf alloc) = some d) (hS : d.written = slice S 0 d.written.length) :
    ∃ qs, Inv S b d (ps ++ qs) ws ∧ Follow c.written.length qs d.written.length := by
  rw [step, Option.some.injEq] at hd
  subst hd
  simp only at hS ⊢
  have hpush := write_pushes h.wf buf alloc hc
  have hwf : Wf (TcpOutput.write c.sender buf alloc).1 :=
    TcpOutput.wf_step (a := .write buf alloc) h.wf hc rfl
  obtain ⟨qs, hqs, hfollow⟩ := h.carries.pushes hpush (slice_split hS).2
  rw [← List.length_append] at hqs hfollow
  refine ⟨qs, ⟨hwf, hqs, h.wire, ?_, h.short, h.separate, ?_, h.received⟩, hfollow⟩
  · intro w hw
    have := h.sent w hw
    rw [List.length_append]
    omega
  · intro q hq w hw
    rcases List.mem_append.mp hq with hq | hq
    · exact h.beside q hq w hw
    · exact .inr (.inr ((h.sent w hw).trans (hfollow.start_ge q hq)))

/-- The receiver does what the peer's stream allows, and gets on. -/
theorem Inv.receive (h : Inv S b c ps ws) {a : Reassembly.Act}
    (ha : Reassembly.FromPeer S b {w | w ∈ ws} Reassembly.nearEdge c.receiver a) (as : List Ack) :
    Inv S b { c with receiver := Reassembly.next c.receiver a, acks := as } ps ws ∧
      (ackOf c.receiver).pos ≤ (ackOf (Reassembly.next c.receiver a)).pos := by
  have hsep : {w | w ∈ ws}.Pairwise Separate := fun w hw v hv _ => h.separate w hw v hv
  obtain ⟨rs, hrs⟩ := h.received
  obtain ⟨qs, hqs, hle⟩ := hrs.advances hsep ha
  refine ⟨⟨h.wf, h.carries, h.wire, h.sent, h.short, h.separate, h.beside, qs, hqs⟩, ?_⟩
  rwa [ackOf, ackOf, hrs.acked, hqs.acked]

/-- ARRIVAL: what is on the wire is a piece of the stream. -/
theorem Inv.arrive (h : Inv S b c ps ws) {i : ℕ} {w : Packet} (hw : c.wire[i]? = some w)
    (hlo : c.receiver.given.length ≤ w.pos + 2 ^ 30)
    (hhi : w.pos + w.payload.length ≤ c.receiver.given.length + 2 ^ 30) (alloc : Bool) :
    Reassembly.FromPeer S b {w | w ∈ ws} Reassembly.nearEdge c.receiver
      (.segment (.ofBytes w.seq w.payload) alloc) := by
  rw [h.wire, List.getElem?_map, Option.map_eq_some_iff] at hw
  obtain ⟨p, hp, rfl⟩ := hw
  have hmem := List.mem_of_getElem? hp
  have hlen := p.start_add_len
  simp only [packet, length_slice] at hhi
  refine ⟨p, hmem, h.short p hmem, rfl, hlo, ?_⟩
  rw [Reassembly.nearEdge]
  omega

/-- A stream that goes on from what was written after a step. -/
theorem written_of_step {a : Act} (hd : step c a = some d)
    (hS : d.written = slice S 0 d.written.length) : c.written = slice S 0 c.written.length := by
  cases a with
  | write buf alloc =>
    cases hd
    exact (slice_split hS).1
  | output seq sndNxt window alloc sent =>
    cases hd
    rwa [(picoTcpOutputTurn_frame c seq sndNxt window alloc sent).1] at hS
  | retransmit seq sent =>
    cases hd
    rwa [(retransmit_frame c seq sent).1] at hS
  | ackIn i =>
    rw [step, Option.map_eq_some_iff] at hd
    obtain ⟨x, -, rfl⟩ := hd
    exact hS
  | arrive i alloc =>
    rw [step, Option.map_eq_some_iff] at hd
    obtain ⟨w, -, rfl⟩ := hd
    exact hS
  | read len =>
    cases hd
    exact hS
  | ackOut =>
    cases hd
    exact hS
  | optionMss mss =>
    cases hd
    exact hS
  | optionTimestamp =>
    cases hd
    exact hS
  | sackPermitted =>
    cases hd
    exact hS

/-- What a step does to the pieces in the queue: more follow, some are released, or one is taken
    apart. -/
def Moved (b : BitVec 32) (c d : Connection) (a : Act) (ps qs : List Piece) : Prop :=
  (∃ rs, qs = ps ++ rs ∧ Follow c.written.length rs d.written.length) ∨
    (∃ i x rs, a = .ackIn i ∧ c.acks[i]? = some x ∧ ps = rs ++ qs ∧ d.written = c.written ∧
      ∀ q ∈ rs, picoSeqCompare (adv b q.stop) x.ackn ≤ 0) ∨
    ∃ seq sndNxt window alloc sent, a = .output seq sndNxt window alloc sent ∧ Splits c seq window

theorem Moved.same {a : Act} (h : d.written = c.written) : Moved b c d a ps ps :=
  .inl ⟨[], (List.append_nil ps).symm, by rw [h]; rfl⟩

/-- STEP -/
theorem Inv.step {a : Act} (h : Inv S b c ps ws) (hc : Sound c a) (hd : step c a = some d)
    (hS : d.written = slice S 0 d.written.length) :
    ∃ qs vs, Inv S b d qs vs ∧ (ackOf c.receiver).pos ≤ (ackOf d.receiver).pos ∧
      (∀ x ∈ d.acks, x ∈ c.acks ∨ x = ackOf c.receiver) ∧ Moved b c d a ps qs := by
  cases a with
  | write buf alloc =>
    obtain ⟨qs, hqs, hfollow⟩ := h.write buf alloc hc hd hS
    cases hd
    exact ⟨ps ++ qs, ws, hqs, le_rfl, fun x hx => .inl hx, .inl ⟨qs, rfl, hfollow⟩⟩
  | output seq sndNxt window alloc sent =>
    cases hd
    obtain ⟨qs, vs, hnext, hcase⟩ := h.output hc.1 hc.2 alloc sent
    obtain ⟨hwritten, hreceiver, hacks⟩ := picoTcpOutputTurn_frame c seq sndNxt window alloc sent
    refine ⟨qs, vs, hnext, by rw [hreceiver], fun x hx => .inl (by rwa [hacks] at hx), ?_⟩
    rcases hcase with rfl | hsplits
    · exact .same hwritten
    · exact .inr (.inr ⟨seq, sndNxt, window, alloc, sent, rfl, hsplits⟩)
  | retransmit seq sent =>
    cases hd
    obtain ⟨hwritten, hreceiver, hacks⟩ := retransmit_frame c seq sent
    obtain ⟨vs, hnext⟩ : ∃ vs, Inv S b (retransmit c seq sent) ps vs := by
      rw [retransmit]
      split
      · exact ⟨ws, h⟩
      · rename_i f hf
        exact h.transmit_frame (List.mem_of_find?_eq_some hf) sent
    exact ⟨ps, vs, hnext, by rw [hreceiver], fun x hx => .inl (by rwa [hacks] at hx), .same hwritten⟩
  | ackIn i =>
    rw [Transfer.step, Option.map_eq_some_iff] at hd
    obtain ⟨x, hx, rfl⟩ := hd
    obtain ⟨qs, rs, rfl, hle, hrs⟩ := h.carries.release x.ackn _ rfl
    have hnext := h.of_sender (h.wf.releaseAllUntil x.ackn _ rfl) hrs fun q hq =>
      h.beside q (List.mem_append_right qs hq)
    exact ⟨rs, ws, hnext, le_rfl, fun x hx => .inl hx, .inr (.inl ⟨i, x, qs, rfl, hx, rfl, rfl, hle⟩)⟩
  | arrive i alloc =>
    rw [Transfer.step, Option.map_eq_some_iff] at hd
    obtain ⟨w, hw, rfl⟩ := hd
    obtain ⟨hlo, hhi⟩ := hc w hw
    obtain ⟨hnext, hle⟩ := h.receive (h.arrive hw hlo hhi alloc) c.acks
    exact ⟨ps, ws, hnext, hle, fun x hx => .inl hx, .same rfl⟩
  | read len =>
    cases hd
    obtain ⟨hnext, hle⟩ := h.receive (a := .read len) hc c.acks
    exact ⟨ps, ws, hnext, hle, fun x hx => .inl hx, .same rfl⟩
  | ackOut =>
    cases hd
    obtain ⟨hnext, hle⟩ := h.receive (a := .ack) trivial (c.acks ++ [ackOf c.receiver])
    exact ⟨ps, ws, hnext, hle, fun x hx => by simpa using hx, .same rfl⟩
  | optionMss mss =>
    cases hd
    have hwf : Wf { c.sender with mss := min c.sender.mss mss } :=
      h.wf.of_queue rfl ((min_le_left ..).trans h.wf.mss_le) rfl
    exact ⟨ps, ws, h.of_sender hwf (h.carries.of_queue rfl rfl) h.beside, le_rfl,
      fun x hx => .inl hx, .same rfl⟩
  | optionTimestamp =>
    cases hd
    have hwf : Wf { c.sender with tsOk := true } := h.wf.of_queue rfl h.wf.mss_le rfl
    exact ⟨ps, ws, h.of_sender hwf (h.carries.of_queue rfl rfl) h.beside, le_rfl,
      fun x hx => .inl hx, .same rfl⟩
  | sackPermitted =>
    cases hd
    obtain ⟨hnext, hle⟩ := h.receive (a := .sackPermitted) trivial c.acks
    exact ⟨ps, ws, hnext, hle, fun x hx => .inl hx, .same rfl⟩

theorem inv_connected (S : ℕ → UInt8) (isIpv6 hasDev : Bool) (remotePort : ℕ) (sndNxt : BitVec 32)
    {maxSize : ℕ} (hmax : maxSize < 2 ^ 30) (sackOk : Bool) :
    Inv S (sndNxt + 1) (connected isIpv6 hasDev remotePort sndNxt maxSize sackOk) [] [] := by
  have hlast : sndNxt + 1 = adv (sndNxt + 1) 0 := (adv_zero _).symm
  exact ⟨TcpOutput.wf_begin .., ⟨rfl, List.Pairwise.nil, by simp, hlast, by simp, by simp⟩, rfl,
    by simp, by simp, by simp, by simp, [], Reassembly.inv_opened hmax⟩

/-- The stream that goes on from the bytes `l` with this byte. -/
def extend (l : List UInt8) (x : UInt8) (i : ℕ) : UInt8 := l.getD i x

theorem slice_extend (l : List UInt8) (x : UInt8) : l = slice (extend l x) 0 l.length := by
  refine List.ext_getElem (by simp) ?_
  intro i hi hi'
  simp [slice, extend, List.getElem?_eq_getElem hi]

theorem slice_extend_take {l : List UInt8} (x : UInt8) (hk : k ≤ l.length) :
    slice (extend l x) 0 k = l.take k := by
  rw [← take_slice hk, ← slice_extend]

/-- For every stream that goes on from what was written. -/
def Good (b : BitVec 32) (c : Connection) : Prop :=
  ∀ S, c.written = slice S 0 c.written.length → ∃ ps ws, Inv S b c ps ws

theorem good_step {a : Act} (h : Good b c) (hc : Sound c a) (hd : step c a = some d) : Good b d := by
  intro S hS
  obtain ⟨ps, ws, hinv⟩ := h S (written_of_step hd hS)
  obtain ⟨qs, vs, hnext, -⟩ := hinv.step hc hd hS
  exact ⟨qs, vs, hnext⟩

/-- Nothing is read that was not written: what was written does not determine what comes after it. -/
theorem Good.given_le (h : Good b c) : c.receiver.given.length ≤ c.written.length := by
  by_contra hlt
  rw [not_le] at hlt
  have hread : ∀ x, c.receiver.given[c.written.length]? = some x := by
    intro x
    obtain ⟨ps, ws, hinv⟩ := h (extend c.written x) (slice_extend c.written x)
    obtain ⟨rs, hrs⟩ := hinv.received
    rw [hrs.given_eq, slice, List.getElem?_map, List.getElem?_range' hlt]
    simp [extend]
  have hzero := hread 0
  rw [hread 1] at hzero
  exact absurd hzero (by decide)

/-- `rcv_nxt` counts bytes that were written. -/
theorem Inv.acked_le (h : Inv S b c ps ws) (hgiven : c.receiver.given.length ≤ c.written.length) :
    c.receiver.tcp.rcvNxt = adv b (ackOf c.receiver).pos ∧
      (ackOf c.receiver).pos ≤ c.written.length := by
  obtain ⟨rs, hrs⟩ := h.received
  rw [ackOf, hrs.acked]
  exact ⟨hrs.nxt, reach_le_stop hgiven fun p hp => h.sent p (hrs.mem p hp)⟩

/-- One read gets the bytes that were written, up to `rcv_nxt`. -/
theorem Inv.read (h : Inv (extend c.written 0) b c ps ws)
    (hgiven : c.receiver.given.length ≤ c.written.length) {len : ℕ} (hlen : len < 2 ^ 32) :
    (Reassembly.read c.receiver len).given =
      c.written.take (min (c.receiver.given.length + len) (ackOf c.receiver).pos) := by
  obtain ⟨rs, hrs⟩ := h.received
  have hn := (h.acked_le hgiven).2
  rw [ackOf, hrs.acked] at hn ⊢
  rw [(hrs.read hlen).1, slice_extend_take 0 ((min_le_right ..).trans hn)]

/-- IN ORDER: whatever is lost, repeated or overtaken on the way and whichever frames are sent when,
    what one application has read is the beginning of what the other has written. `rcv_nxt` counts
    bytes that were written, and the application can read on up to it at once. -/
theorem delivered_in_order {isIpv6 hasDev : Bool} {remotePort : ℕ} {sndNxt : BitVec 32} {maxSize : ℕ}
    {sackOk : Bool} {as : List Act} (hmax : maxSize < 2 ^ 30)
    (hm : Meets step Sound (connected isIpv6 hasDev remotePort sndNxt maxSize sackOk) as)
    (hr : run step (connected isIpv6 hasDev remotePort sndNxt maxSize sackOk) as = some c) :
    c.receiver.given <+: c.written ∧ ∃ n ≤ c.written.length, c.receiver.tcp.rcvNxt = adv (sndNxt + 1) n ∧
      ∀ len < 2 ^ 32, (Reassembly.read c.receiver len).given =
        c.written.take (min (c.receiver.given.length + len) n) := by
  have hgood : Good (sndNxt + 1) c :=
    run_keeps (I := Good (sndNxt + 1)) (fun _ _ _ h hc hd => good_step h hc hd)
      (fun S _ => ⟨[], [], inv_connected S isIpv6 hasDev remotePort sndNxt hmax sackOk⟩) hm hr
  have hgiven := hgood.given_le
  obtain ⟨ps, ws, h⟩ := hgood _ (slice_extend c.written 0)
  obtain ⟨hnxt, hn⟩ := h.acked_le hgiven
  obtain ⟨rs, hrs⟩ := h.received
  refine ⟨?_, _, hn, hnxt, fun len hlen => h.read hgiven hlen⟩
  rw [hrs.given_eq, slice_extend_take 0 hgiven]
  exact List.take_prefix ..

/-- Three bytes and two are written. The second segment overtakes the first one, which is lost and sent
    again; all is acknowledged, and one byte more is written. -/
def overtaken : List Act :=
  let ok : ℕ → Alloc := fun _ => ⟨true, true⟩
  [.write [1, 2, 3] ok, .write [4, 5] ok, .output 0 0 1000 ⟨true, true⟩ true,
    .output 3 0 1000 ⟨true, true⟩ true, .arrive 1 true, .ackOut, .retransmit 0 true, .arrive 2 true,
    .ackOut, .ackIn 1, .ackIn 0, .read 4, .write [6] ok]

theorem delivered_in_order_overtaken :
    ∃ c, run step (connected false true 80 (-1) 1000 true) overtaken = some c ∧
      c.receiver.given = [1, 2, 3, 4] ∧ c.receiver.given <+: c.written ∧
      ∃ n ≤ c.written.length, c.receiver.tcp.rcvNxt = adv (-1 + 1) n ∧
        ∀ len < 2 ^ 32, (Reassembly.read c.receiver len).given =
          c.written.take (min (c.receiver.given.length + len) n) := by
  have hrun : (run step (connected false true 80 (-1) 1000 true) overtaken).map
      (fun c => c.receiver.given) = some [1, 2, 3, 4] := by
    decide +kernel
  obtain ⟨c, hc, hgiven⟩ := Option.map_eq_some_iff.mp hrun
  exact ⟨c, hc, hgiven, delivered_in_order (by decide) (by decide +kernel) hc⟩

-- A frame numbered 0 must not be sent while `snd_nxt` is another number: the first frame could not be
-- copied, and the second one goes out under its number.
example : (run step (connected false true 80 (-4) 1000 true)
    [.write [1, 2, 3] fun _ => ⟨true, true⟩, .write [4, 5, 6] fun _ => ⟨true, true⟩,
      .output (-3) (-3) 1000 ⟨true, true⟩ false, .output 0 (-3) 1000 ⟨true, true⟩ true, .arrive 0 true,
      .read 3]).map (fun c => c.receiver.given) = some [4, 5, 6] := by
  decide +kernel

/-- No frame is taken apart, and an acknowledgement arrives while it is within `2^30` bytes of what was
    written. -/
def Prompt (c : Connection) : Act → Prop
  | .output seq _ window _ _ => ¬ Splits c seq window
  | .ackIn i => ∀ x ∈ c.acks[i]?, c.written.length ≤ x.pos + 2 ^ 30
  | _ => True

instance Prompt.decidable (c : Connection) : ∀ a, Decidable (Prompt c a)
  | .output _ _ _ _ _ => inferInstanceAs (Decidable (¬ ∃ una ∈ _, ∃ f ∈ _, _))
  | .ackIn _ => inferInstanceAs (Decidable (∀ x ∈ _, _))
  | .write _ _ | .retransmit _ _ | .arrive _ _ | .read _ | .ackOut | .optionMss _ | .optionTimestamp
  | .sackPermitted => isTrue trivial

/-- The queue holds all that was written from `k` on, and no acknowledgement is ahead of the receiver,
    which has got all before `k`. -/
structure Held (S : ℕ → UInt8) (b : BitVec 32) (c : Connection) (ps ws : List Piece) (k : ℕ) : Prop where
  inv : Inv S b c ps ws
  follow : Follow k ps c.written.length
  got : k ≤ (ackOf c.receiver).pos
  acks : ∀ x ∈ c.acks, x.ackn = adv b x.pos ∧ x.pos ≤ (ackOf c.receiver).pos

/-- An acknowledgement that is on its way releases what the receiver has got. -/
theorem Held.released (h : Held S b c ps ws k) (hgiven : c.receiver.given.length ≤ c.written.length)
    {x : Ack} (hx : x ∈ c.acks) (hnear : c.written.length ≤ x.pos + 2 ^ 30) (hp : p ∈ ps)
    (hle : picoSeqCompare (adv b p.stop) x.ackn ≤ 0) : p.stop ≤ (ackOf c.receiver).pos := by
  obtain ⟨hackn, hpos⟩ := h.acks x hx
  have hacked := (h.inv.acked_le hgiven).2
  have hstop := h.inv.carries.stop_le p hp
  have hlast := h.inv.carries.near p hp
  have hlt := p.lt
  rw [hackn, Reassembly.picoSeqCompare_near (by omega) (by omega)] at hle
  omega

theorem Held.step {a : Act} (h : Held S b c ps ws k)
    (hgiven : c.receiver.given.length ≤ c.written.length) (hc : Sound c a) (hprompt : Prompt c a)
    (hd : step c a = some d) (hS : d.written = slice S 0 d.written.length) :
    ∃ qs vs m, Held S b d qs vs m := by
  obtain ⟨qs, vs, hnext, hgot, hacks, hmoved⟩ := h.inv.step hc hd hS
  have honest : ∀ x ∈ d.acks, x.ackn = adv b x.pos ∧ x.pos ≤ (ackOf d.receiver).pos := by
    intro x hx
    rcases hacks x hx with hx | rfl
    · exact ⟨(h.acks x hx).1, (h.acks x hx).2.trans hgot⟩
    · exact ⟨(h.inv.acked_le hgiven).1, hgot⟩
  rcases hmoved with ⟨rs, rfl, hfollow⟩ | ⟨i, x, rs, rfl, hx, rfl, hwritten, hle⟩ |
    ⟨seq, sndNxt, window, alloc, sent, rfl, hsplits⟩
  · exact ⟨_, vs, k, hnext, h.follow.append hfollow, h.got.trans hgot, honest⟩
  · obtain ⟨m, hm, hcase⟩ := h.follow.split
    refine ⟨qs, vs, m, hnext, by rwa [hwritten], ?_, honest⟩
    rcases hcase with rfl | ⟨p, hp, rfl⟩
    · exact h.got.trans hgot
    · exact (h.released hgiven (List.mem_of_getElem? hx) (hprompt x hx)
        (List.mem_append_left qs hp) (hle p hp)).trans hgot
  · exact absurd hsplits hprompt

/-- NOTHING IS LOST: while no frame is taken apart, what was written and the receiver has yet to get
    is in `tcpq_out` to be sent again, byte for byte. `n` is how much the receiver has got: the
    application can read on up to there at once. -/
theorem nothing_lost {isIpv6 hasDev : Bool} {remotePort : ℕ} {sndNxt : BitVec 32} {maxSize : ℕ}
    {sackOk : Bool} {as : List Act} (hmax : maxSize < 2 ^ 30)
    (hm : Meets step Sound (connected isIpv6 hasDev remotePort sndNxt maxSize sackOk) as)
    (hp : Meets step Prompt (connected isIpv6 hasDev remotePort sndNxt maxSize sackOk) as)
    (hr : run step (connected isIpv6 hasDev remotePort sndNxt maxSize sackOk) as = some c) :
    ∃ k n, k ≤ n ∧ n ≤ c.written.length ∧ c.receiver.tcp.rcvNxt = adv (sndNxt + 1) n ∧
      (∀ len < 2 ^ 32, (Reassembly.read c.receiver len).given =
        c.written.take (min (c.receiver.given.length + len) n)) ∧
      waiting c.sender = c.written.drop k := by
  have hkeeps : ∀ S, c.written = slice S 0 c.written.length →
      ∃ ps ws k, Held S (sndNxt + 1) c ps ws k := by
    refine run_keeps (I := fun c => ∀ S, c.written = slice S 0 c.written.length →
      ∃ ps ws k, Held S (sndNxt + 1) c ps ws k) ?_ ?_ (hm.and hp) hr
    · intro c a d h hc hd S hS
      have hgood : Good (sndNxt + 1) c := by
        intro S hS
        obtain ⟨ps, ws, k, hheld⟩ := h S hS
        exact ⟨ps, ws, hheld.inv⟩
      obtain ⟨ps, ws, k, hheld⟩ := h S (written_of_step hd hS)
      exact hheld.step hgood.given_le hc.1 hc.2 hd hS
    · intro S _
      exact ⟨[], [], 0, inv_connected S isIpv6 hasDev remotePort sndNxt hmax sackOk, rfl,
        Nat.zero_le _, by simp [connected]⟩
  have hgood : Good (sndNxt + 1) c := by
    intro S hS
    obtain ⟨ps, ws, k, hheld⟩ := hkeeps S hS
    exact ⟨ps, ws, hheld.inv⟩
  obtain ⟨ps, ws, k, h⟩ := hkeeps _ (slice_extend c.written 0)
  obtain ⟨hnxt, hn⟩ := h.inv.acked_le hgood.given_le
  refine ⟨k, _, h.got, hn, hnxt, fun len hlen => h.inv.read hgood.given_le hlen, ?_⟩
  have hpool := congrArg (List.flatMap Prod.snd) h.inv.carries.pool
  simp only [List.flatMap_map, frameOf, bytesOf] at hpool
  have hrest : c.written.drop k = slice (extend c.written 0) k (c.written.length - k) := by
    conv_lhs => rw [slice_extend c.written 0]
    rw [drop_slice, Nat.zero_add]
  rw [waiting, hpool, h.follow.flatMap_slice, hrest]

theorem nothing_lost_overtaken :
    ∃ c, run step (connected false true 80 (-1) 1000 true) overtaken = some c ∧
      waiting c.sender = [6] ∧ ∃ k n, k ≤ n ∧ n ≤ c.written.length ∧
        c.receiver.tcp.rcvNxt = adv (-1 + 1) n ∧
        (∀ len < 2 ^ 32, (Reassembly.read c.receiver len).given =
          c.written.take (min (c.receiver.given.length + len) n)) ∧
        waiting c.sender = c.written.drop k := by
  have hrun : (run step (connected false true 80 (-1) 1000 true) overtaken).map
      (fun c => waiting c.sender) = some [6] := by
    decide +kernel
  obtain ⟨c, hc, hwaiting⟩ := Option.map_eq_some_iff.mp hrun
  exact ⟨c, hc, hwaiting, nothing_lost (by decide) (by decide +kernel) (by decide +kernel) hc⟩

end FdPicotcp.Transfer
