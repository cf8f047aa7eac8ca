import FdPicotcp.Lib.Pieces
import FdPicotcp.Lib.Transition
import FdPicotcp.Stack.TcpQueue
import Mathlib.Data.List.Find

/-! What does an application read when segments arrive in any order (`modules/pico_tcp.c`)?

    `tcp_data_in` keeps the segment that it expects, and a later one when the peer permits selective
    acknowledgements; then `tcp_sack_prepare` tells the peer what is kept beyond the gap. Segments
    may be lost, repeated and overtake each other. The peer sends the pieces of one stream: `S` has
    its bytes, `b` is the sequence number of the first one. -/

namespace FdPicotcp.Reassembly
open TcpQueue Pieces Transition CInt

/-- `struct tcp_sack_block` -/
structure TcpSackBlock where
  left : BitVec 32
  right : BitVec 32
  deriving DecidableEq

/-- The receiving side of a connection. -/
structure Receiver where
  tcp : PicoSocketTcp
  sackOk : Bool
  sacks : List TcpSackBlock
  /-- what `pico_tcp_read` has copied out so far -/
  given : List UInt8
  /-- the blocks in the acknowledgements sent so far -/
  told : List TcpSackBlock
  /-- the position up to which they allow the peer to send -/
  granted : ℕ
  deriving DecidableEq

/-- The loop of `tcp_set_space`; 32 bits bound the turns. -/
def spaceLoop : ℕ → ℕ → ℕ → ℕ × ℕ
  | 0, space, shift => (space, shift)
  | n + 1, space, shift =>
    if 0xFFFF < space then spaceLoop n (space / 2) (shift + 1) else (space, shift)

/-- `wnd` and `wnd_scale` -/
def tcpSetSpace (tq : PicoTcpQueue) : ℕ × ℕ :=
  let space : ℤ := if tq.maxSize = 0 then 2 ^ 30 else toInt32 (toUint32 (tq.maxSize - tq.size))
  spaceLoop 32 (if space < 0 then 0 else space.toNat) 0

/-- The window that the peer reads in an acknowledgement. -/
def window (tq : PicoTcpQueue) : ℕ := (tcpSetSpace tq).1 * 2 ^ (tcpSetSpace tq).2

/-- The loop of `tcp_sack_prepare`; `alloc` is that there is memory for a block. A turn that goes on
    moves to the next segment, so the number of segments bounds the turns. -/
def sackLoop (t : PicoSocketTcp) (alloc : Bool) : ℕ → Option TcpInputSegment → BitVec 32 →
    BitVec 32 → ℕ → List TcpSackBlock → List TcpSackBlock
  | 0, _, _, _, _, sacks => sacks
  | k + 1, pkt, left, right, n, sacks =>
    if 3 ≤ n then sacks
    else
      match pkt with
      | none => if left ≠ 0 ∧ alloc then ⟨left, right⟩ :: sacks else sacks
      | some pkt =>
        -- a plain comparison, not `pico_seq_compare`
        if pkt.seq < t.rcvNxt then
          sackLoop t alloc k (nextSegment t.tcpqIn pkt) left right n sacks
        else if left = 0 then
          sackLoop t alloc k (nextSegment t.tcpqIn pkt) pkt.seq pkt.next n sacks
        else if pkt.seq = right then
          sackLoop t alloc k (nextSegment t.tcpqIn pkt) left
            (right + BitVec.ofNat 32 pkt.payloadLen) n sacks
        else if alloc then
          sackLoop t alloc k (nextSegment t.tcpqIn pkt) 0 0 (n + 1) (⟨left, right⟩ :: sacks)
        else sacks

/-- `tcp_sack_prepare`: nothing while blocks wait to be told. -/
def tcpSackPrepare (r : Receiver) (alloc : Bool) : Receiver :=
  if r.sacks ≠ [] then r
  else
    let turns := r.tcp.tcpqIn.pool.length + 1
    { r with sacks := sackLoop r.tcp alloc turns (firstSegment r.tcp.tcpqIn) 0 0 0 r.sacks }

/-- `tcp_data_in_high_segment`: without SACK the segment is dropped. -/
def tcpDataInHighSegment (r : Receiver) (f : TcpInputSegment) (alloc : Bool) : Receiver :=
  if r.sackOk then
    let (ret, q) := picoEnqueueSegment r.tcp.tcpqIn f
    if ret ≤ 0 then r else tcpSackPrepare { r with tcp.tcpqIn := q } alloc
  else r

/-- `tcp_data_in`: what is not after `rcv_nxt` is tried as the expected segment. -/
def tcpDataIn (r : Receiver) (f : TcpInputSegment) (alloc : Bool) : Receiver :=
  if picoSeqCompare f.seq r.tcp.rcvNxt ≤ 0 then { r with tcp := (tcpDataInExpected r.tcp f).1 }
  else tcpDataInHighSegment r f alloc

/-- `tcp_add_sack_option` tells the blocks and frees them. -/
def tcpAddSackOption (r : Receiver) : Receiver :=
  if r.sackOk then { r with told := r.told ++ r.sacks, sacks := [] } else r

/-- An acknowledgement carries `rcv_nxt` and the window from there. -/
def tcpSendAck (r : Receiver) : Receiver :=
  let acked := r.given.length + (r.tcp.rcvNxt - r.tcp.rcvProcessed).toNat
  { tcpAddSackOption r with granted := max r.granted (acked + window r.tcp.tcpqIn) }

/-- `pico_tcp_read`; what the application gets is kept. -/
def read (r : Receiver) (len : ℕ) : Receiver :=
  { r with
    tcp := (picoTcpRead r.tcp len).1
    given := r.given ++ (picoTcpRead r.tcp len).2.2 }

/-- What comes from the peer, the application and the stack's own timers. -/
inductive Act where
  | segment (f : TcpInputSegment) (alloc : Bool)
  | read (len : ℕ)
  | ack
  /-- `tcp_parse_options` finds that the peer permits selective acknowledgements -/
  | sackPermitted
  deriving DecidableEq

/-- The receiver after a step. -/
def next (r : Receiver) : Act → Receiver
  | .segment f alloc => tcpDataIn r f alloc
  | .read len => read r len
  | .ack => tcpSendAck r
  | .sackPermitted => { r with sackOk := true }

/-- Every step is enabled. -/
def step (r : Receiver) (a : Act) : Option Receiver := some (next r a)

/-- A connection whose first byte has the sequence number `b`. -/
def opened (b : BitVec 32) (maxSize : ℕ) (sackOk : Bool) : Receiver where
  tcp :=
    { tcpqIn := { pool := [], maxSize := maxSize, size := 0, frames := 0 }
      rcvNxt := b
      rcvProcessed := b
      remoteClosed := false }
  sackOk := sackOk
  sacks := []
  given := []
  told := []
  granted := window { pool := [], maxSize := maxSize, size := 0, frames := 0 }

/-- The segment that carries this piece of the stream. -/
def segment (S : ℕ → UInt8) (b : BitVec 32) (p : Piece) : TcpInputSegment :=
  .ofBytes (adv b p.start) (slice S p.start p.len)

/-- What the network brings: pieces of the family `F`, not more than `2^30` bytes behind the byte that
    the application reads next and not beyond `edge`. A read asks for less than `2^32` bytes. -/
def FromPeer (S : ℕ → UInt8) (b : BitVec 32) (F : Set Piece) (edge : Receiver → ℕ) (r : Receiver) :
    Act → Prop
  | .segment f _ => ∃ p ∈ F, p.len < 2 ^ 16 ∧ f = segment S b p ∧
      r.given.length ≤ p.start + 2 ^ 30 ∧ p.stop ≤ edge r
  | .read len => len < 2 ^ 32
  | .ack | .sackPermitted => True

/-- Half the sequence numbers are ahead of what the application reads next, and half of these are
    enough. -/
def nearEdge (r : Receiver) : ℕ := r.given.length + 2 ^ 30

/-- The queue holds the pieces `ps` of the stream, read up to position `k`. -/
structure Holds (S : ℕ → UInt8) (b : BitVec 32) (t : PicoSocketTcp) (ps : List Piece) (k : ℕ) :
    Prop where
  pool_eq : t.tcpqIn.pool = ps.map (segment S b)
  processed : t.rcvProcessed = adv b k
  apart : Apart ps
  short : ∀ p ∈ ps, p.len < 2 ^ 16
  ahead : ∀ p ∈ ps, k ≤ p.stop
  near : ∀ p ∈ ps, p.stop ≤ k + 2 ^ 30
  size_eq : t.tcpqIn.size = covered ps
  size_le : t.tcpqIn.size ≤ t.tcpqIn.maxSize
  max_lt : t.tcpqIn.maxSize < 2 ^ 30

variable {S : ℕ → UInt8} {b : BitVec 32} {F : Set Piece} {t : PicoSocketTcp} {p : Piece}
  {ps : List Piece} {k x y : ℕ} {r : Receiver}

/-- Positions less than `2^31` bytes apart compare as they are. -/
theorem picoSeqCompare_near (hxy : x < y + 2 ^ 31) (hyx : y < x + 2 ^ 31) :
    picoSeqCompare (adv b x) (adv b y) = x - y := by
  rcases Nat.le_total x y with h | h
  · obtain ⟨d, rfl⟩ := Nat.exists_eq_add_of_le h
    have hd := picoSeqCompare_adv (adv b x) (m := 0) (n := d) (by omega) (by omega)
    rw [adv_zero, adv_adv] at hd
    omega
  · obtain ⟨d, rfl⟩ := Nat.exists_eq_add_of_le h
    have hd := picoSeqCompare_adv (adv b y) (m := d) (n := 0) (by omega) (by omega)
    rw [adv_zero, adv_adv] at hd
    omega

@[simp] theorem segment_seq : (segment S b p).seq = adv b p.start := rfl

theorem segment_payload (h : p.len < 2 ^ 16) :
    (segment S b p).payload = slice S p.start p.len := by
  have hall : (slice S p.start p.len).take (2 ^ 16 - 1) = slice S p.start p.len := by
    rw [List.take_of_length_le]
    rw [length_slice]
    omega
  exact hall

theorem segment_payloadLen (h : p.len < 2 ^ 16) : (segment S b p).payloadLen = p.len := by
  rw [TcpInputSegment.payloadLen, segment_payload h, length_slice]

theorem segment_next (h : p.len < 2 ^ 16) : (segment S b p).next = adv b p.stop := by
  rw [TcpInputSegment.next_eq, segment_payloadLen h, segment_seq, adv_adv, p.start_add_len]

/-- A held piece is close to the byte that the application reads next. -/
theorem Holds.start_near (h : Holds S b t ps k) (hp : p ∈ ps) :
    k < p.start + 2 ^ 16 ∧ p.start < k + 2 ^ 30 := by
  have hlen := p.start_add_len
  have := p.lt
  have := h.short p hp
  have := h.ahead p hp
  have := h.near p hp
  omega

theorem Holds.compare (h : Holds S b t ps k) (hp : p ∈ ps) (hlo : k ≤ x + 2 ^ 30)
    (hhi : x ≤ k + 2 ^ 30) : picoSeqCompare (segment S b p).seq (adv b x) = p.start - x := by
  have := h.start_near hp
  exact picoSeqCompare_near (by omega) (by omega)

theorem Holds.peek (h : Holds S b t ps k) (hlo : k ≤ x + 2 ^ 30) (hhi : x ≤ k + 2 ^ 30) :
    peekSegment t.tcpqIn (adv b x) =
      (ps.find? fun p => p.start = x).map (segment S b) := by
  rw [peekSegment, findSeq, h.pool_eq, List.find?_map]
  congr 1
  refine List.find?_congr ?_
  intro p hp
  simp only [Function.comp_apply, h.compare hp hlo hhi, decide_eq_decide]
  omega

/-- The tree is in the order of the stream. -/
theorem Holds.treeInsert (h : Holds S b t ps k) (hlo : k ≤ p.start + 2 ^ 30)
    (hhi : p.start ≤ k + 2 ^ 30) :
    treeInsert (segment S b p) (ps.map (segment S b)) = (place p ps).map (segment S b) := by
  rw [TcpQueue.treeInsert, insertSeq, place]
  refine (List.map_orderedInsert _ _ (segment S b) ps p ?_ ?_).symm <;>
  · intro q hq
    have := h.start_near hq
    rw [segment_seq, segment_seq, picoSeqCompare_near (by omega) (by omega)]
    omega

/-- ENQUEUE: a piece is placed among the others unless the queue is full or has one that starts
    there. -/
theorem Holds.enqueue (h : Holds S b t ps k) (hlen : p.len < 2 ^ 16)
    (hlo : k ≤ p.start + 2 ^ 30) (hhi : p.stop ≤ k + 2 ^ 30) (hk : k ≤ p.stop)
    (hsep : ∀ q ∈ ps, Separate p q) :
    (picoEnqueueSegment t.tcpqIn (segment S b p)).1 ≤ 0 ∧
        (t.tcpqIn.maxSize < t.tcpqIn.size + p.len ∨ ∃ q ∈ ps, q.start = p.start) ∨
      0 < (picoEnqueueSegment t.tcpqIn (segment S b p)).1 ∧
        Holds S b { t with tcpqIn := (picoEnqueueSegment t.tcpqIn (segment S b p)).2 }
          (place p ps) k := by
  have hplt := p.lt
  have hpos := p.len_pos
  have hpl := segment_payloadLen (S := S) (b := b) hlen
  rw [picoEnqueueSegment, if_neg (by omega), doEnqueueSegment]
  by_cases hfit : t.tcpqIn.maxSize < t.tcpqIn.size + (segment S b p).payloadLen
  · rw [if_pos hfit]
    exact .inl ⟨le_rfl, .inl (by omega)⟩
  · rw [if_neg hfit, segment_seq, h.peek hlo (by omega), Option.isSome_map]
    by_cases hfound : (ps.find? fun q => q.start = p.start).isSome
    · rw [if_pos hfound]
      obtain ⟨q, hq, hstart⟩ := List.find?_isSome.mp hfound
      exact .inl ⟨le_rfl, .inr ⟨q, hq, by simpa using hstart⟩⟩
    · rw [if_neg hfound]
      have hne : ∀ q ∈ ps, p ≠ q := by
        rintro q hq rfl
        refine hfound (List.find?_isSome.mpr ⟨p, hq, ?_⟩)
        exact decide_eq_true rfl
      refine .inr ⟨by simp only; omega, ?_⟩
      refine ⟨?_, h.processed, h.apart.place hne hsep, ?_, ?_, ?_, ?_, ?_, h.max_lt⟩
      · simp only [h.pool_eq]
        exact h.treeInsert hlo (by omega)
      · intro q hq
        rcases mem_place.mp hq with rfl | hq
        · exact hlen
        · exact h.short q hq
      · intro q hq
        rcases mem_place.mp hq with rfl | hq
        · exact hk
        · exact h.ahead q hq
      · intro q hq
        rcases mem_place.mp hq with rfl | hq
        · exact hhi
        · exact h.near q hq
      · simp only [covered_place, h.size_eq, hpl]
      · simp only
        omega

/-- Without its first piece, which ends where the application reads next. -/
theorem Holds.tail {q : PicoTcpQueue} (h : Holds S b t (p :: ps) x)
    (hk : x ≤ p.stop) (hproc : k = p.stop) (hpool : q.pool = ps.map (segment S b))
    (hsize : q.size = t.tcpqIn.size - p.len) (hmax : q.maxSize = t.tcpqIn.maxSize) :
    Holds S b { t with tcpqIn := q, rcvProcessed := adv b k } ps k := by
  subst hproc
  obtain ⟨hp, hapart⟩ := apart_cons.mp h.apart
  have htotal := h.size_eq
  have hle := h.size_le
  rw [covered_cons] at htotal
  refine ⟨hpool, rfl, hapart, ?_, ?_, ?_, ?_, ?_, by simpa only [hmax] using h.max_lt⟩
  · exact fun y hy => h.short y (List.mem_cons_of_mem p hy)
  · intro y hy
    have := hp y hy
    have := y.lt
    omega
  · intro y hy
    have := h.near y (List.mem_cons_of_mem p hy)
    omega
  · simp only [hsize]
    omega
  · simp only [hsize, hmax]
    omega

theorem Holds.discard_head (h : Holds S b t (p :: ps) k) :
    picoDiscardSegment t.tcpqIn (segment S b p) = { t.tcpqIn with
      pool := ps.map (segment S b)
      size := t.tcpqIn.size - p.len
      frames := t.tcpqIn.frames - 1 } := by
  have hpl := segment_payloadLen (S := S) (b := b) (h.short p (List.mem_cons_self ..))
  have hpos := p.len_pos
  rw [picoDiscardSegment_head (h.pool_eq.trans (List.map_cons ..)) (by omega), hpl]

/-- RELEASE: the first piece goes if it has been read to its end, and what is left ends after the
    byte that the application reads next. -/
theorem Holds.released (h : Holds S b t ps k) :
    ∃ qs, Holds S b (released t) qs k ∧ reach qs k = reach ps k ∧ (∀ q ∈ qs, k < q.stop) ∧
      qs ⊆ ps ∧ ∀ q ∈ ps, q ∈ qs ∨ q.stop ≤ k := by
  cases ps with
  | nil =>
    have hrel : TcpQueue.released t = t := by
      rw [TcpQueue.released, releaseUntil, firstSegment, h.pool_eq]
      rfl
    rw [hrel]
    exact ⟨[], h, rfl, by simp, by simp, by simp⟩
  | cons p ps =>
    have hplt := p.lt
    have hstop := h.ahead p (List.mem_cons_self ..)
    have hnear := h.near p (List.mem_cons_self ..)
    have hstart := h.start_near (List.mem_cons_self ..)
    have hshort := h.short p (List.mem_cons_self ..)
    obtain ⟨hp, -⟩ := apart_cons.mp h.apart
    have hfirst : firstSegment t.tcpqIn = some (segment S b p) := by
      rw [firstSegment, h.pool_eq]
      rfl
    have hlength : t.tcpqIn.pool.length = ps.length + 1 := by
      rw [h.pool_eq, List.length_map, List.length_cons]
    have hcmp : picoSeqCompare (segment S b p).next (adv b k) = p.stop - k := by
      rw [segment_next hshort]
      exact picoSeqCompare_near (by omega) (by omega)
    by_cases hend : p.stop = k
    · have hturn : releaseUntil t.tcpqIn t.rcvProcessed =
          picoDiscardSegment t.tcpqIn (segment S b p) := by
        rw [releaseUntil, hfirst, hlength, h.processed, releaseUntilLoop, if_pos (by omega),
          nextSegment, segment_next hshort, h.peek (by omega) (by omega)]
        cases hfind : (p :: ps).find? fun q => q.start = p.stop with
        | none =>
          cases ps.length with
          | zero => rfl
          | succ n => rfl
        | some q =>
          have hqs : q.start = p.stop := by simpa using List.find?_some hfind
          have hq := List.mem_of_find?_eq_some hfind
          have hqlt := q.lt
          have hqnear := h.near q hq
          refine releaseUntilLoop_stop ?_ _
          rw [segment_next (h.short q hq), picoSeqCompare_near (by omega) (by omega)]
          omega
      have hrel : TcpQueue.released t = { t with
          tcpqIn := picoDiscardSegment t.tcpqIn (segment S b p)
          rcvProcessed := adv b k } := by
        rw [TcpQueue.released, hturn, ← h.processed]
      rw [hrel, h.discard_head]
      refine ⟨ps, h.tail hstop hend.symm rfl rfl rfl, ?_, ?_, List.subset_cons_self p ps, ?_⟩
      · rw [reach_cons, advance_of_le (by omega) (by omega), hend]
      · intro q hq
        have := hp q hq
        have := q.lt
        omega
      · intro q hq
        rcases List.mem_cons.mp hq with rfl | hq
        · exact .inr hend.le
        · exact .inl hq
    · have hrel : TcpQueue.released t = t := by
        rw [TcpQueue.released, releaseUntil, hfirst, h.processed,
          releaseUntilLoop_stop (by omega), ← h.processed]
      rw [hrel]
      refine ⟨p :: ps, h, rfl, ?_, List.Subset.refl _, fun q hq => .inl hq⟩
      intro q hq
      rcases List.mem_cons.mp hq with rfl | hq
      · omega
      · have := hp q hq
        have := q.lt
        omega

/-- One turn of the read loop: `n` bytes of the first piece are copied. -/
theorem Holds.turn {n : ℕ} (h : Holds S b t (p :: ps) k) (hstart : p.start ≤ k) (hpos : 0 < n)
    (hn : k + n ≤ p.stop) :
    ∃ qs, Holds S b { t with
        tcpqIn := tcpReadCheckSegmentDone t.tcpqIn (segment S b p) n
        rcvProcessed := adv b (k + n) } qs (k + n) ∧
      reach qs (k + n) = reach (p :: ps) k ∧ qs ⊆ p :: ps ∧
      ∀ q ∈ p :: ps, q ∈ qs ∨ q.stop ≤ k + n := by
  have hlen := p.start_add_len
  have hshort := h.short p (List.mem_cons_self ..)
  have hpl := segment_payloadLen (S := S) (b := b) hshort
  have hreach := reach_inside ps hstart (Nat.le_add_right k n) hn
  by_cases hdone : n = p.len
  · rw [tcpReadCheckSegmentDone, if_pos (.inr (hdone.trans hpl.symm)), h.discard_head]
    refine ⟨ps, h.tail (by omega) (by omega) rfl rfl rfl, ?_, List.subset_cons_self p ps, ?_⟩
    · rw [← hreach, reach_cons, advance_of_le (by omega) hn]
      congr 1
      omega
    · intro q hq
      rcases List.mem_cons.mp hq with rfl | hq
      · exact .inr (by omega)
      · exact .inl hq
  · rw [tcpReadCheckSegmentDone, if_neg (by rw [hpl]; exact not_or_intro hpos.ne' hdone)]
    refine ⟨p :: ps, ⟨h.pool_eq, rfl, h.apart, h.short, ?_, ?_, h.size_eq, h.size_le, h.max_lt⟩,
      hreach, List.Subset.refl _, fun q hq => .inl hq⟩
    · intro q hq
      rcases List.mem_cons.mp hq with rfl | hq
      · exact hn
      · have := (apart_cons.mp h.apart).1 q hq
        have := q.lt
        omega
    · intro q hq
      have := h.near q hq
      omega

/-- LOOP: the read loop copies the stream from `k` on, until it has `len` bytes or comes to the first
    gap. -/
theorem Holds.readLoop {len n tot : ℕ} (buf : List UInt8) (hlen : len < 2 ^ 32)
    (h : Holds S b t ps k) (hn : reach ps k < k + n) (htot : tot ≤ len)
    (hsum : reach ps k + tot < k + 2 ^ 31) :
    ∃ u qs m, m = min (len - tot) (reach ps k - k) ∧
      picoTcpReadLoop len n t tot buf = (u, tot + m, buf ++ slice S k m) ∧
      Holds S b u qs (k + m) ∧ reach qs (k + m) = reach ps k ∧ qs ⊆ ps ∧
      ∀ q ∈ ps, q ∈ qs ∨ q.stop ≤ k + m := by
  induction n generalizing t ps k tot buf with
  | zero =>
    have := le_reach ps k
    omega
  | succ n ih =>
    by_cases hfull : len ≤ tot
    · obtain rfl : len = tot := by omega
      refine ⟨t, ps, 0, by omega, ?_, h, rfl, List.Subset.refl _, fun q hq => .inl hq⟩
      rw [picoTcpReadLoop_done le_rfl, slice_zero, List.append_nil, Nat.add_zero]
    · obtain ⟨rs, hr, hreach, hafter, hsub, hkept⟩ := h.released
      rw [← hreach] at hn hsum ⊢
      have hturn : picoTcpReadLoop len (n + 1) t tot buf =
          match firstSegment (TcpQueue.released t).tcpqIn with
          | none => (TcpQueue.released t, tot, buf)
          | some f =>
            let inFrameOff := picoSeqCompare (TcpQueue.released t).rcvProcessed f.seq
            if inFrameOff < 0 then (TcpQueue.released t, tot, buf)
            else
              let inFrameLen := tcpReadInFrameLen f inFrameOff tot len
              picoTcpReadLoop len n
                { TcpQueue.released t with
                  tcpqIn := tcpReadCheckSegmentDone (TcpQueue.released t).tcpqIn f inFrameLen
                  rcvProcessed := adv (TcpQueue.released t).rcvProcessed inFrameLen }
                (tot + inFrameLen)
                (buf ++ (f.payload.drop inFrameOff.toNat).take inFrameLen) := by
        rw [picoTcpReadLoop, if_neg hfull]
        rfl
      rw [hturn]
      generalize TcpQueue.released t = v at hr
      cases rs with
      | nil =>
        rw [firstSegment, hr.pool_eq]
        refine ⟨v, [], 0, by rw [reach_nil]; omega, ?_, hr, rfl, hsub, hkept⟩
        rw [slice_zero, List.append_nil, Nat.add_zero]
        rfl
      | cons p rs =>
        have hplt := p.lt
        have hplen := p.start_add_len
        have hshort := hr.short p (List.mem_cons_self ..)
        have hpl := segment_payloadLen (S := S) (b := b) hshort
        have hstart := hr.start_near (List.mem_cons_self ..)
        have hstop := hafter p (List.mem_cons_self ..)
        have hnear := hr.near p (List.mem_cons_self ..)
        have hcmp : picoSeqCompare v.rcvProcessed (segment S b p).seq = k - p.start := by
          rw [hr.processed, segment_seq]
          exact picoSeqCompare_near (by omega) (by omega)
        simp only [firstSegment, hr.pool_eq, List.map_cons, List.head?_cons, hcmp]
        by_cases hgap : k < p.start
        · -- a hole at the beginning of data
          have hself : reach (p :: rs) k = k := by
            refine reach_eq_self ?_
            intro q hq
            rcases List.mem_cons.mp hq with rfl | hq
            · exact hgap
            · have := (apart_cons.mp hr.apart).1 q hq
              omega
          rw [if_pos (by omega), hself]
          refine ⟨v, p :: rs, 0, by omega, ?_, hr, hself, hsub, hkept⟩
          rw [slice_zero, List.append_nil, Nat.add_zero]
        · have hinside := stop_le_reach (List.mem_cons_self (a := p) (l := rs)) (not_lt.mp hgap)
          have hoff : (k : ℤ) - p.start = ((k - p.start : ℕ) : ℤ) := by omega
          rw [if_neg (by omega), hoff,
            tcpReadInFrameLen_eq (by omega) htot hlen (by omega), hpl, Int.toNat_natCast]
          generalize hm : min (p.len - (k - p.start)) (len - tot) = m
          obtain ⟨qs, hq, hqreach, hqsub, hqkept⟩ := hr.turn (n := m) (not_lt.mp hgap) (by omega) (by omega)
          rw [hr.processed, adv_adv]
          have hle := le_reach qs (k + m)
          have htot' : tot + m ≤ len := by omega
          obtain ⟨u, ts, l, hl, hloop, hu, hureach, husub, hukept⟩ :=
            ih (buf ++ ((segment S b p).payload.drop (k - p.start)).take m) hq
              (by rw [hqreach]; omega) htot' (by rw [hqreach]; omega)
          rw [hqreach] at hl hureach
          rw [Nat.add_assoc] at hloop hu hureach hukept
          refine ⟨u, ts, m + l, by omega, ?_, hu, hureach, fun q hq => hsub (hqsub (husub hq)), ?_⟩
          · have hpay : ((segment S b p).payload.drop (k - p.start)).take m = slice S k m := by
              rw [segment_payload hshort, drop_slice, take_slice (by omega)]
              congr 1
              omega
            rw [hloop, hpay, List.append_assoc, slice_append]
          · intro q hq
            rcases hkept q hq with hq | hq
            · rcases hqkept q hq with hq | hq
              · exact hukept q hq
              · exact .inr (by omega)
            · exact .inr (by omega)

/-- READ: what is there up to the first gap, as far as it was asked for. -/
theorem Holds.read {len : ℕ} (hlen : len < 2 ^ 32) (h : Holds S b t ps k) :
    ∃ u qs m, m = min len (reach ps k - k) ∧ picoTcpRead t len = (u, m, slice S k m) ∧
      Holds S b u qs (k + m) ∧ reach qs (k + m) = reach ps k ∧ qs ⊆ ps ∧
      ∀ q ∈ ps, q ∈ qs ∨ q.stop ≤ k + m := by
  have hreach := reach_le ps k
  have hsize := h.size_eq
  have hle := h.size_le
  have hmax := h.max_lt
  obtain ⟨u, qs, m, hm, hloop, hu⟩ := h.readLoop (n := t.tcpqIn.size + 1) [] hlen
    (by omega) (Nat.zero_le len) (by omega)
  rw [Nat.zero_add, List.nil_append] at hloop
  exact ⟨u, qs, m, by omega, hloop, hu⟩

/-- SCROLL: `rcv_nxt` walks from piece to piece. -/
theorem Holds.scroll (h : Holds S b t ps k) (n : ℕ) (hlo : k ≤ x) (hhi : x ≤ k + 2 ^ 30) :
    scrollRcvNxt t.tcpqIn n (adv b x) = adv b (walk ps n x) := by
  induction n generalizing x with
  | zero => rfl
  | succ n ih =>
    rw [scrollRcvNxt, walk, h.peek (by omega) hhi]
    cases hfind : ps.find? fun p => p.start = x with
    | none => rfl
    | some p =>
      have hstart : p.start = x := by simpa using List.find?_some hfind
      have hp := List.mem_of_find?_eq_some hfind
      have hlen := p.start_add_len
      have hnear := h.near p hp
      simp only [Option.map_some]
      rw [segment_payloadLen (h.short p hp), ← adv, adv_adv, ← hstart, hlen]
      exact ih (by omega) hnear

/-- ARRIVAL of the expected piece: if it fits, `rcv_nxt` moves to the next gap. -/
theorem Holds.expected (h : Holds S b t ps k) (hnxt : t.rcvNxt = adv b (reach ps k))
    (hlen : p.len < 2 ^ 16) (hstart : p.start = reach ps k) (hhi : p.stop ≤ k + 2 ^ 30)
    (hsep : ∀ q ∈ ps, Separate p q) :
    (tcpDataInExpected t (segment S b p)).1 = t ∧ t.tcpqIn.maxSize < t.tcpqIn.size + p.len ∨
      Holds S b (tcpDataInExpected t (segment S b p)).1 (place p ps) k ∧
        (tcpDataInExpected t (segment S b p)).1.rcvNxt = adv b (reach (place p ps) k) := by
  have hplt := p.lt
  have hk := le_reach ps k
  have hself : picoSeqCompare (segment S b p).seq t.rcvNxt = 0 := by
    rw [hnxt, segment_seq, hstart, picoSeqCompare_eq, BitVec.sub_self]
    rfl
  rw [tcpDataInExpected, if_pos hself]
  rcases h.enqueue hlen (by omega) hhi (by omega) hsep with ⟨hrefused, hwhy⟩ | ⟨hret, hplaced⟩
  · simp only [if_pos hrefused]
    rcases hwhy with hfull | ⟨q, hq, hsame⟩
    · exact .inl ⟨trivial, hfull⟩
    · exact absurd (hsame.trans hstart) (h.apart.start_ne_reach hq)
  · have hpool := hplaced.pool_eq
    have hwalk := reach_place_end (n := (place p ps).length) h.apart hsep hstart
      (by rw [length_place]; omega)
    have hnear : p.stop ≤ k + 2 ^ 30 := hhi
    simp only [if_neg (not_le.mpr hret)]
    refine .inr ⟨⟨hpool, hplaced.processed, hplaced.apart, hplaced.short, hplaced.ahead,
      hplaced.near, hplaced.size_eq, hplaced.size_le, hplaced.max_lt⟩, ?_⟩
    rw [segment_next hlen, ← hwalk]
    simp only at hpool
    rw [hpool, List.length_map]
    exact hplaced.scroll _ (by omega) hhi

/-- The byte at position `i` is in one of the pieces, or was given to the application. -/
def There (ps : List Piece) (k i : ℕ) : Prop := i < k ∨ ∃ p ∈ ps, p.start ≤ i ∧ i < p.stop

/-- A range of bytes that are there. -/
def Honest (b : BitVec 32) (ps : List Piece) (k : ℕ) (s : TcpSackBlock) : Prop :=
  ∃ l h, s = ⟨adv b l, adv b h⟩ ∧ l < h ∧ h ≤ k + 2 ^ 30 ∧ ∀ i, l ≤ i → i < h → There ps k i

theorem Honest.mono {qs : List Piece} {s : TcpSackBlock} (h : Honest b ps k s) (hk : k ≤ x)
    (hkept : ∀ p ∈ ps, p ∈ qs ∨ p.stop ≤ x) : Honest b qs x s := by
  obtain ⟨l, u, rfl, hlu, hu, hthere⟩ := h
  refine ⟨l, u, rfl, hlu, by omega, ?_⟩
  intro i hl hi
  rcases hthere i hl hi with hgiven | ⟨p, hp, hpi⟩
  · exact .inl (by omega)
  · rcases hkept p hp with hp | hstop
    · exact .inr ⟨p, hp, hpi⟩
    · exact .inl (by omega)

/-- The segment that the loop looks at is one of the queue. -/
def Looks (S : ℕ → UInt8) (b : BitVec 32) (ps : List Piece) (pkt : Option TcpInputSegment) : Prop :=
  ∀ f ∈ pkt, ∃ p ∈ ps, f = segment S b p

theorem Holds.looks_first (h : Holds S b t ps k) : Looks S b ps (firstSegment t.tcpqIn) := by
  intro f hf
  rw [firstSegment, h.pool_eq, List.head?_map] at hf
  obtain ⟨p, hp, rfl⟩ := Option.map_eq_some_iff.mp hf
  exact ⟨p, List.mem_of_head? hp, rfl⟩

theorem Holds.looks_next (h : Holds S b t ps k) (hp : p ∈ ps) :
    Looks S b ps (nextSegment t.tcpqIn (segment S b p)) := by
  have hahead := h.ahead p hp
  intro f hf
  rw [nextSegment, segment_next (h.short p hp), h.peek (by omega) (h.near p hp)] at hf
  obtain ⟨q, hq, rfl⟩ := Option.map_eq_some_iff.mp hf
  exact ⟨q, List.mem_of_find?_eq_some hq, rfl⟩

/-- What the loop has gathered so far: nothing, or a range that is there and ends in the queue. -/
def Gathered (b : BitVec 32) (ps : List Piece) (k : ℕ) (left right : BitVec 32) : Prop :=
  left = 0 ∨ ∃ l h, left = adv b l ∧ right = adv b h ∧ l < h ∧ k ≤ h ∧ h ≤ k + 2 ^ 30 ∧
    ∀ i, l ≤ i → i < h → There ps k i

theorem Gathered.honest {left right : BitVec 32} (h : Gathered b ps k left right)
    (hne : left ≠ 0) : Honest b ps k ⟨left, right⟩ := by
  rcases h with hzero | ⟨l, u, rfl, rfl, hlu, -, hu, hthere⟩
  · exact absurd hzero hne
  · exact ⟨l, u, rfl, hlu, hu, hthere⟩

theorem Holds.gathered_one (h : Holds S b t ps k) (hp : p ∈ ps) :
    Gathered b ps k (segment S b p).seq (segment S b p).next := by
  refine .inr ⟨p.start, p.stop, rfl, segment_next (h.short p hp), p.lt, h.ahead p hp, h.near p hp, ?_⟩
  intro i hl hi
  exact .inr ⟨p, hp, hl, hi⟩

theorem Holds.gathered_more (h : Holds S b t ps k) (hp : p ∈ ps) {left right : BitVec 32}
    (hg : Gathered b ps k left right) (hright : (segment S b p).seq = right) :
    Gathered b ps k left (right + BitVec.ofNat 32 (segment S b p).payloadLen) := by
  rcases hg with hzero | ⟨l, u, rfl, rfl, hlu, hku, hu, hthere⟩
  · exact .inl hzero
  · have hnear := h.start_near hp
    have hplt := p.lt
    -- the two sequence numbers are equal and close to one another: so are the positions
    have hstart : p.start = u := by
      have hcmp := picoSeqCompare_near (b := b) (x := p.start) (y := u) (by omega) (by omega)
      rw [← segment_seq (S := S), hright, picoSeqCompare_eq, BitVec.sub_self] at hcmp
      have hzero : (0#32).toInt = 0 := rfl
      rw [hzero] at hcmp
      omega
    refine .inr ⟨l, p.stop, rfl, ?_, by omega, h.ahead p hp, h.near p hp, ?_⟩
    · rw [segment_payloadLen (h.short p hp), ← adv, adv_adv, ← hstart, p.start_add_len]
    · intro i hl hi
      by_cases hiu : i < u
      · exact hthere i hl hiu
      · exact .inr ⟨p, hp, by omega, hi⟩

/-- LOOP: `tcp_sack_prepare` adds honest blocks only. -/
theorem Holds.sackLoop (h : Holds S b t ps k) (alloc : Bool) (turns : ℕ)
    {pkt : Option TcpInputSegment} {left right : BitVec 32} {n : ℕ} {sacks : List TcpSackBlock}
    (hpkt : Looks S b ps pkt) (hg : Gathered b ps k left right)
    (hs : ∀ s ∈ sacks, Honest b ps k s) :
    ∀ s ∈ Reassembly.sackLoop t alloc turns pkt left right n sacks, Honest b ps k s := by
  induction turns generalizing pkt left right n sacks with
  | zero => exact hs
  | succ turns ih =>
    have hadd : left ≠ 0 → ∀ s ∈ ⟨left, right⟩ :: sacks, Honest b ps k s := by
      intro hleft s hmem
      rcases List.mem_cons.mp hmem with rfl | hmem
      · exact hg.honest hleft
      · exact hs s hmem
    cases pkt with
    | none =>
      rw [Reassembly.sackLoop]
      split
      · exact hs
      · split
        · rename_i hleft
          exact hadd hleft.1
        · exact hs
    | some f =>
      obtain ⟨p, hp, rfl⟩ := hpkt f rfl
      have hnext := h.looks_next hp
      rw [Reassembly.sackLoop]
      split
      · exact hs
      · split
        · exact ih hnext hg hs
        · split
          · exact ih hnext (h.gathered_one hp) hs
          · rename_i hleft
            split
            · rename_i hright
              exact ih hnext (h.gathered_more hp hg hright) hs
            · split
              · exact ih hnext (.inl rfl) (hadd hleft)
              · exact hs

/-- The queue holds pieces of the family, the application got the stream up to the first of them,
    and every block that the peer was or will be told of is honest. -/
structure Inv (S : ℕ → UInt8) (b : BitVec 32) (F : Set Piece) (r : Receiver) (ps : List Piece) :
    Prop where
  holds : Holds S b r.tcp ps r.given.length
  mem : ∀ p ∈ ps, p ∈ F
  given_eq : r.given = slice S 0 r.given.length
  nxt : r.tcp.rcvNxt = adv b (reach ps r.given.length)
  sacks : ∀ s ∈ r.sacks, Honest b ps r.given.length s
  told : ∀ s ∈ r.told, Honest b ps r.given.length s

theorem inv_opened {maxSize : ℕ} {sackOk : Bool} (hmax : maxSize < 2 ^ 30) :
    Inv S b F (opened b maxSize sackOk) [] := by
  have hzero : b = adv b 0 := (adv_zero b).symm
  exact ⟨⟨rfl, hzero, List.Pairwise.nil, by simp, by simp, by simp, rfl, Nat.zero_le _, hmax⟩,
    by simp, rfl, hzero, by simp [opened], by simp [opened]⟩

theorem mem_of_place {p : Piece} (hp : p ∈ F) (hmem : ∀ q ∈ ps, q ∈ F) :
    ∀ q ∈ place p ps, q ∈ F := by
  intro q hq
  rcases mem_place.mp hq with rfl | hq
  · exact hp
  · exact hmem q hq

theorem kept_place (p : Piece) (k : ℕ) : ∀ q ∈ ps, q ∈ place p ps ∨ q.stop ≤ k :=
  fun _ hq => .inl (mem_place.mpr (.inr hq))

theorem Inv.prepare (h : Inv S b F r ps) (alloc : Bool) : Inv S b F (tcpSackPrepare r alloc) ps := by
  rw [tcpSackPrepare]
  split
  · exact h
  · exact ⟨h.holds, h.mem, h.given_eq, h.nxt,
      h.holds.sackLoop alloc _ h.holds.looks_first (.inl rfl) h.sacks, h.told⟩

theorem Inv.separate (h : Inv S b F r ps) (hF : F.Pairwise Separate) (hp : p ∈ F) :
    ∀ q ∈ ps, Separate p q := by
  intro q hq
  by_cases heq : p = q
  · exact .inl heq
  · exact hF hp (h.mem q hq) heq

/-- ARRIVAL of any piece of the family. -/
theorem Inv.segment (h : Inv S b F r ps) (hF : F.Pairwise Separate) (hp : p ∈ F)
    (hlen : p.len < 2 ^ 16) (hlo : r.given.length ≤ p.start + 2 ^ 30)
    (hhi : p.stop ≤ r.given.length + 2 ^ 30) (alloc : Bool) :
    ∃ qs, Inv S b F (tcpDataIn r (Reassembly.segment S b p) alloc) qs ∧
      (qs = ps ∧ (p.start = reach ps r.given.length →
          r.tcp.tcpqIn.maxSize < r.tcp.tcpqIn.size + p.len) ∨
        qs = place p ps ∧ reach ps r.given.length ≤ p.start) := by
  have hplt := p.lt
  have hsep := h.separate hF hp
  have hreach := reach_le ps r.given.length
  have hge := le_reach ps r.given.length
  have hsize := h.holds.size_eq
  have hle := h.holds.size_le
  have hmax := h.holds.max_lt
  have hcmp : picoSeqCompare (Reassembly.segment S b p).seq r.tcp.rcvNxt =
      p.start - reach ps r.given.length := by
    rw [h.nxt]
    exact picoSeqCompare_near (by omega) (by omega)
  rw [tcpDataIn, hcmp]
  rcases lt_trichotomy p.start (reach ps r.given.length) with hlow | hexact | hhigh
  · -- a retransmission of what is there
    rw [if_pos (by omega), tcpDataInExpected, if_neg (by rw [hcmp]; omega)]
    exact ⟨ps, h, .inl ⟨rfl, fun heq => absurd heq hlow.ne⟩⟩
  · rw [if_pos (by omega)]
    rcases h.holds.expected h.nxt hlen hexact hhi hsep with ⟨hsame, hfull⟩ | ⟨hplaced, hnxt⟩
    · rw [hsame]
      exact ⟨ps, h, .inl ⟨rfl, fun _ => hfull⟩⟩
    · exact ⟨place p ps, ⟨hplaced, mem_of_place hp h.mem, h.given_eq, hnxt,
        fun s hs => (h.sacks s hs).mono le_rfl (kept_place p _),
        fun s hs => (h.told s hs).mono le_rfl (kept_place p _)⟩, .inr ⟨rfl, hexact.ge⟩⟩
  · rw [if_neg (by omega), tcpDataInHighSegment]
    split
    · rcases h.holds.enqueue hlen (by omega) hhi (by omega) hsep with ⟨hrefused, -⟩ | ⟨hret, hplaced⟩
      · simp only [if_pos hrefused]
        exact ⟨ps, h, .inl ⟨rfl, fun heq => absurd heq hhigh.ne'⟩⟩
      · simp only [if_neg (not_le.mpr hret)]
        have hkept : Inv S b F { r with tcp.tcpqIn :=
            (picoEnqueueSegment r.tcp.tcpqIn (Reassembly.segment S b p)).2 } (place p ps) :=
          ⟨hplaced, mem_of_place hp h.mem, h.given_eq,
            h.nxt.trans (by rw [reach_place_beyond hhigh]),
            fun s hs => (h.sacks s hs).mono le_rfl (kept_place p _),
            fun s hs => (h.told s hs).mono le_rfl (kept_place p _)⟩
        exact ⟨place p ps, hkept.prepare alloc, .inr ⟨rfl, hhigh.le⟩⟩
    · exact ⟨ps, h, .inl ⟨rfl, fun heq => absurd heq hhigh.ne'⟩⟩

/-- READ: the application gets what is there up to the first gap. -/
theorem Inv.read {len : ℕ} (hlen : len < 2 ^ 32) (h : Inv S b F r ps) :
    (read r len).given = slice S 0 (min (r.given.length + len) (reach ps r.given.length)) ∧
      ∃ qs, Inv S b F (read r len) qs ∧ qs ⊆ ps ∧
        reach qs (read r len).given.length = reach ps r.given.length := by
  obtain ⟨u, qs, m, hm, hread, hu, hreach, hsub, hkept⟩ := h.holds.read hlen
  have hge := le_reach ps r.given.length
  have hframe := picoTcpReadLoop_frame len (r.tcp.tcpqIn.size + 1) r.tcp 0 []
  rw [← picoTcpRead, hread] at hframe
  have hgiven : r.given ++ slice S r.given.length m = slice S 0 (r.given.length + m) := by
    conv_lhs => rw [h.given_eq, length_slice]
    have happ := slice_append (S := S) (k := 0) (m := r.given.length) (n := m)
    rwa [Nat.zero_add] at happ
  have hlength : (r.given ++ slice S r.given.length m).length = r.given.length + m := by
    rw [List.length_append, length_slice]
  rw [Reassembly.read, hread]
  refine ⟨?_, qs, ⟨?_, ?_, ?_, ?_, ?_, ?_⟩, hsub, ?_⟩
  · simp only [hgiven]
    congr 1
    omega
  · simp only [hlength]
    exact hu
  · exact fun q hq => h.mem q (hsub hq)
  · simp only [hgiven, length_slice]
  · simp only [hlength, hreach]
    exact hframe.1.trans h.nxt
  · simp only [hlength]
    exact fun s hs => (h.sacks s hs).mono (by omega) hkept
  · simp only [hlength]
    exact fun s hs => (h.told s hs).mono (by omega) hkept
  · simp only [hlength]
    exact hreach

theorem tcpAddSackOption_frame (r : Receiver) :
    (tcpAddSackOption r).tcp = r.tcp ∧ (tcpAddSackOption r).given = r.given := by
  rw [tcpAddSackOption]
  split <;> exact ⟨rfl, rfl⟩

theorem Inv.ack (h : Inv S b F r ps) : Inv S b F (tcpSendAck r) ps := by
  rw [tcpSendAck, tcpAddSackOption]
  split
  · refine ⟨h.holds, h.mem, h.given_eq, h.nxt, by simp, ?_⟩
    intro s hs
    rcases List.mem_append.mp hs with hs | hs
    · exact h.told s hs
    · exact h.sacks s hs
  · exact ⟨h.holds, h.mem, h.given_eq, h.nxt, h.sacks, h.told⟩

/-- Where the peer may send to: no further than the queue has room for, counted from every byte that
    it holds or expects. -/
structure Room (r : Receiver) (ps : List Piece) : Prop where
  ahead : r.granted ≤ r.given.length + r.tcp.tcpqIn.maxSize
  starts : ∀ p ∈ ps, r.granted ≤ p.start + r.tcp.tcpqIn.maxSize
  inside : ∀ p ∈ ps, p.stop ≤ r.granted

theorem spaceLoop_le (n space shift : ℕ) :
    (spaceLoop n space shift).1 * 2 ^ (spaceLoop n space shift).2 ≤ space * 2 ^ shift := by
  induction n generalizing space shift with
  | zero => exact le_rfl
  | succ n ih =>
    rw [spaceLoop]
    split
    · refine (ih (space / 2) (shift + 1)).trans ?_
      calc space / 2 * 2 ^ (shift + 1) = space / 2 * 2 * 2 ^ shift := by rw [pow_succ']; ring
        _ ≤ space * 2 ^ shift := Nat.mul_le_mul_right _ (Nat.div_mul_le_self space 2)
    · exact le_rfl

/-- The window is not larger than the free space of the queue. -/
theorem window_le (tq : PicoTcpQueue) (hpos : 0 < tq.maxSize) (hmax : tq.maxSize < 2 ^ 30)
    (hsize : tq.size ≤ tq.maxSize) : tq.size + window tq ≤ tq.maxSize := by
  have hspace : toInt32 (toUint32 (tq.maxSize - tq.size)) = (tq.maxSize : ℤ) - tq.size := by
    rw [toInt32_toUint32]
    exact toInt32_of_range (by omega) (by omega)
  have hloop := spaceLoop_le 32 (tq.maxSize - tq.size) 0
  rw [window, tcpSetSpace, if_neg hpos.ne', hspace, if_neg (by omega)]
  have hnat : ((tq.maxSize : ℤ) - tq.size).toNat = tq.maxSize - tq.size := by omega
  simp only [hnat]
  omega

/-- Data that arrives moves neither what was read nor what was granted. -/
theorem tcpDataIn_frame (r : Receiver) (f : TcpInputSegment) (alloc : Bool) :
    (tcpDataIn r f alloc).given = r.given ∧ (tcpDataIn r f alloc).granted = r.granted ∧
      (tcpDataIn r f alloc).tcp.tcpqIn.maxSize = r.tcp.tcpqIn.maxSize := by
  rw [tcpDataIn]
  split
  · refine ⟨rfl, rfl, ?_⟩
    rcases tcpDataInExpected_size r.tcp f with hsame | ⟨-, -, -, -, hmax⟩
    · rw [hsame]
    · exact hmax
  · rw [tcpDataInHighSegment]
    split
    · rcases picoEnqueueSegment_size r.tcp.tcpqIn f with ⟨hrefused, -⟩ | ⟨-, -, -, hmax⟩
      · simp only [if_pos hrefused, and_self]
      · simp only
        split
        · exact ⟨rfl, rfl, rfl⟩
        · rw [tcpSackPrepare]
          split
          · exact ⟨rfl, rfl, hmax⟩
          · exact ⟨rfl, rfl, hmax⟩
    · exact ⟨rfl, rfl, rfl⟩

theorem read_frame (r : Receiver) (len : ℕ) :
    r.given.length ≤ (read r len).given.length ∧ (read r len).granted = r.granted ∧
      (read r len).tcp.tcpqIn.maxSize = r.tcp.tcpqIn.maxSize := by
  refine ⟨?_, rfl, (picoTcpRead_size r.tcp len).2⟩
  rw [read, List.length_append]
  exact Nat.le_add_right ..

theorem Inv.acked (h : Inv S b F r ps) :
    r.given.length + (r.tcp.rcvNxt - r.tcp.rcvProcessed).toNat = reach ps r.given.length := by
  have hge := le_reach ps r.given.length
  have hle := reach_le ps r.given.length
  have hsize := h.holds.size_eq
  have hfit := h.holds.size_le
  have hmax := h.holds.max_lt
  obtain ⟨d, hd⟩ := Nat.exists_eq_add_of_le hge
  rw [h.nxt, h.holds.processed, hd, ← adv_adv, adv_sub_toNat _ (by omega)]

/-- What a peer that keeps to the windows sends finds room. -/
theorem Room.fits (hroom : Room r ps) (h : Inv S b F r ps) (hF : F.Pairwise Separate) (hp : p ∈ F)
    (hstart : p.start = reach ps r.given.length) (hhi : p.stop ≤ r.granted) :
    r.tcp.tcpqIn.size + p.len ≤ r.tcp.tcpqIn.maxSize := by
  have hge := le_reach ps r.given.length
  have hahead := hroom.ahead
  have hne : ∀ q ∈ ps, p ≠ q := by
    rintro q hq rfl
    exact h.holds.apart.start_ne_reach hq hstart
  have hplaced := h.holds.apart.place hne fun q hq => hF hp (h.mem q hq) (hne q hq)
  have hcovered : covered (place p ps) ≤ r.tcp.tcpqIn.maxSize := by
    refine hplaced.covered_le_of_starts (m := r.granted) ?_ ?_
    · intro q hq
      rcases mem_place.mp hq with rfl | hq
      · omega
      · exact hroom.starts q hq
    · intro q hq
      rcases mem_place.mp hq with rfl | hq
      · exact hhi
      · exact hroom.inside q hq
  rw [covered_place, ← h.holds.size_eq] at hcovered
  exact hcovered

theorem Room.ack (hroom : Room r ps) (h : Inv S b F r ps) (hpos : 0 < r.tcp.tcpqIn.maxSize) :
    Room (tcpSendAck r) ps := by
  have hwindow := window_le _ hpos h.holds.max_lt h.holds.size_le
  have hacked := h.acked
  have hreach := reach_le ps r.given.length
  have hahead := hroom.ahead
  have hsize := h.holds.size_eq
  obtain ⟨htcp, hgiven⟩ := tcpAddSackOption_frame r
  refine ⟨?_, ?_, ?_⟩
  · simp only [tcpSendAck, htcp, hgiven]
    omega
  · intro q hq
    have hq' := hroom.starts q hq
    have hstart := h.holds.apart.reach_le_start h.holds.ahead hq
    simp only [tcpSendAck, htcp]
    omega
  · intro q hq
    exact (hroom.inside q hq).trans (le_max_left ..)

/-- The stream up to `rcv_nxt`, and room for what the peer may send. -/
def Roomy (S : ℕ → UInt8) (b : BitVec 32) (F : Set Piece) (r : Receiver) : Prop :=
  ∃ ps, Inv S b F r ps ∧ Room r ps ∧ 0 < r.tcp.tcpqIn.maxSize

theorem Roomy.near (h : Roomy S b F r) : r.granted ≤ nearEdge r := by
  obtain ⟨ps, hinv, hroom, -⟩ := h
  have hahead := hroom.ahead
  have hmax := hinv.holds.max_lt
  rw [nearEdge]
  omega

/-- STEP: the stream is there as far as before, or further. -/
theorem Inv.advances (hF : F.Pairwise Separate) {a : Act} (h : Inv S b F r ps)
    (hc : FromPeer S b F nearEdge r a) :
    ∃ qs, Inv S b F (next r a) qs ∧
      reach ps r.given.length ≤ reach qs (next r a).given.length := by
  cases a with
  | segment f alloc =>
    obtain ⟨p, hp, hlen, rfl, hlo, hhi⟩ := hc
    obtain ⟨qs, hqs, hcase⟩ := h.segment hF hp hlen hlo hhi alloc
    refine ⟨qs, hqs, ?_⟩
    rw [next, (tcpDataIn_frame r (Reassembly.segment S b p) alloc).1]
    rcases hcase with ⟨rfl, -⟩ | ⟨rfl, -⟩
    · exact le_rfl
    · exact reach_le_place p ps _
  | read len =>
    obtain ⟨qs, hqs, -, hreach⟩ := (h.read hc).2
    exact ⟨qs, hqs, hreach.ge⟩
  | ack =>
    refine ⟨ps, h.ack, ?_⟩
    rw [next, tcpSendAck, (tcpAddSackOption_frame r).2]
  | sackPermitted =>
    exact ⟨ps, ⟨h.holds, h.mem, h.given_eq, h.nxt, h.sacks, h.told⟩, le_rfl⟩

theorem inv_step (hF : F.Pairwise Separate) {a : Act} {r' : Receiver} (h : ∃ ps, Inv S b F r ps)
    (hc : FromPeer S b F nearEdge r a) (hs : step r a = some r') : ∃ ps, Inv S b F r' ps := by
  obtain ⟨ps, h⟩ := h
  rw [step, Option.some.injEq] at hs
  subst hs
  obtain ⟨qs, hqs, -⟩ := h.advances hF hc
  exact ⟨qs, hqs⟩

theorem roomy_step (hF : F.Pairwise Separate) {a : Act} {r' : Receiver} (h : Roomy S b F r)
    (hc : FromPeer S b F Receiver.granted r a) (hs : step r a = some r') : Roomy S b F r' := by
  have hnear := h.near
  obtain ⟨ps, h, hroom, hpos⟩ := h
  have hahead := hroom.ahead
  rw [step, Option.some.injEq] at hs
  subst hs
  cases a with
  | segment f alloc =>
    obtain ⟨p, hp, hlen, rfl, hlo, hhi⟩ := hc
    obtain ⟨hgiven, hgranted, hmax⟩ := tcpDataIn_frame r (segment S b p) alloc
    obtain ⟨qs, hqs, hcase⟩ := h.segment hF hp hlen hlo (hhi.trans hnear) alloc
    refine ⟨qs, hqs, ⟨?_, ?_, ?_⟩, by rw [next, hmax]; exact hpos⟩
    · rw [next, hgiven, hgranted, hmax]
      exact hahead
    · intro q hq
      rw [next, hgranted, hmax]
      rcases hcase with ⟨rfl, -⟩ | ⟨rfl, hstart⟩
      · exact hroom.starts q hq
      · rcases mem_place.mp hq with rfl | hq
        · have := le_reach ps r.given.length
          omega
        · exact hroom.starts q hq
    · intro q hq
      rw [next, hgranted]
      rcases hcase with ⟨rfl, -⟩ | ⟨rfl, -⟩
      · exact hroom.inside q hq
      · rcases mem_place.mp hq with rfl | hq
        · exact hhi
        · exact hroom.inside q hq
  | read len =>
    obtain ⟨hgiven, hgranted, hmax⟩ := read_frame r len
    obtain ⟨qs, hqs, hsub, -⟩ := (h.read hc).2
    refine ⟨qs, hqs, ⟨?_, ?_, ?_⟩, by rw [next, hmax]; exact hpos⟩
    · rw [next, hgranted, hmax]
      omega
    · intro q hq
      rw [next, hgranted, hmax]
      exact hroom.starts q (hsub hq)
    · intro q hq
      rw [next, hgranted]
      exact hroom.inside q (hsub hq)
  | ack =>
    refine ⟨ps, h.ack, hroom.ack h hpos, ?_⟩
    rw [next, tcpSendAck, (tcpAddSackOption_frame r).1]
    exact hpos
  | sackPermitted =>
    exact ⟨ps, ⟨h.holds, h.mem, h.given_eq, h.nxt, h.sacks, h.told⟩,
      ⟨hroom.ahead, hroom.starts, hroom.inside⟩, hpos⟩

section Runs
variable {maxSize : ℕ} {sackOk : Bool} {as : List Act}

theorem inv_run (hF : F.Pairwise Separate) (hmax : maxSize < 2 ^ 30)
    (hm : Meets step (FromPeer S b F nearEdge) (opened b maxSize sackOk) as)
    (hr : run step (opened b maxSize sackOk) as = some r) : ∃ ps, Inv S b F r ps :=
  run_keeps (I := fun r => ∃ ps, Inv S b F r ps) (fun _ _ _ => inv_step hF)
    ⟨[], inv_opened hmax⟩ hm hr

theorem roomy_run (hF : F.Pairwise Separate) (hpos : 0 < maxSize) (hmax : maxSize < 2 ^ 30)
    (hm : Meets step (FromPeer S b F Receiver.granted) (opened b maxSize sackOk) as)
    (hr : run step (opened b maxSize sackOk) as = some r) : Roomy S b F r := by
  refine run_keeps (I := Roomy S b F) (fun _ _ _ => roomy_step hF)
    ⟨[], inv_opened hmax, ⟨?_, by simp, by simp⟩, hpos⟩ hm hr
  have := window_le ⟨[], maxSize, 0, 0⟩ hpos hmax (Nat.zero_le _)
  simp only [opened, List.length_nil] at this ⊢
  omega

/-- IN ORDER: whatever is lost, repeated or overtaken on the way, what the application has read is the
    beginning of the stream, and it can read on up to `rcv_nxt` at once. -/
theorem read_in_order (hF : F.Pairwise Separate) (hmax : maxSize < 2 ^ 30)
    (hm : Meets step (FromPeer S b F nearEdge) (opened b maxSize sackOk) as)
    (hr : run step (opened b maxSize sackOk) as = some r) :
    ∃ n, r.tcp.rcvNxt = adv b n ∧ r.given.length ≤ n ∧
      r.given = slice S 0 r.given.length ∧
      ∀ len < 2 ^ 32, (read r len).given = slice S 0 (min (r.given.length + len) n) := by
  obtain ⟨ps, h⟩ := inv_run hF hmax hm hr
  exact ⟨_, h.nxt, le_reach ps _, h.given_eq, fun len hlen => (h.read hlen).1⟩

/-- The bytes 0, 1, 2, …, sent in segments of two. -/
def counting (i : ℕ) : UInt8 := UInt8.ofNat i

/-- The first four bytes, in two pieces. -/
def halves : Set Piece := {Piece.ofLen 0 1, Piece.ofLen 2 1}

/-- The second segment overtakes the first. -/
def overtaken : List Act :=
  [.segment (segment counting 5 (Piece.ofLen 2 1)) true, .ack,
    .segment (segment counting 5 (Piece.ofLen 0 1)) true, .read 3]

def overtakenEnd : Receiver where
  tcp :=
    { tcpqIn :=
        { pool := [segment counting 5 (Piece.ofLen 2 1)], maxSize := 8, size := 2, frames := 1 }
      rcvNxt := 9
      rcvProcessed := 8
      remoteClosed := false }
  sackOk := true
  sacks := []
  given := [0, 1, 2]
  told := [⟨7, 9⟩]
  granted := 8

theorem overtaken_runs : run step (opened 5 8 true) overtaken = some overtakenEnd := by
  decide

theorem halves_separate : halves.Pairwise Separate := by
  refine (Set.pairwise_pair).mpr fun _ => ⟨.inr (.inl le_rfl), .inr (.inr le_rfl)⟩

theorem overtaken_fromPeer :
    Meets step (FromPeer counting 5 halves nearEdge) (opened 5 8 true) overtaken :=
  ⟨⟨_, .inr rfl, by decide, rfl, by decide, by decide⟩, trivial,
    ⟨_, .inl rfl, by decide, rfl, by decide, by decide⟩, (by decide : 3 < 2 ^ 32), trivial⟩

theorem read_in_order_overtaken :
    ∃ n, overtakenEnd.tcp.rcvNxt = adv 5 n ∧ overtakenEnd.given.length ≤ n ∧
      overtakenEnd.given = slice counting 0 overtakenEnd.given.length ∧
      ∀ len < 2 ^ 32, (read overtakenEnd len).given =
        slice counting 0 (min (overtakenEnd.given.length + len) n) :=
  read_in_order halves_separate (by decide) overtaken_fromPeer overtaken_runs

-- Segments must not overlap: one inside another that is read in two parts stays at the head of the
-- queue, and the second read takes `rcv_processed` back behind what it has read.
example :
    (run step (opened 5 100 true)
      [.segment (segment counting 5 (Piece.ofLen 2 0)) true,
        .segment (segment counting 5 (Piece.ofLen 4 1)) true,
        .segment (segment counting 5 (Piece.ofLen 0 3)) true, .read 1, .read 100]).map
      (fun r => (r.given, r.tcp.rcvProcessed)) = some ([0, 1, 2, 3], 8) := by decide

/-- The queue holds the byte at position `i` of the stream. -/
def Stored (S : ℕ → UInt8) (b : BitVec 32) (t : PicoSocketTcp) (i : ℕ) : Prop :=
  ∃ f ∈ t.tcpqIn.pool, ∃ o, f.seq = adv b o ∧ o ≤ i ∧ f.payload[i - o]? = some (S i)

theorem Holds.stored (h : Holds S b t ps k) {i : ℕ} (hp : p ∈ ps) (hlo : p.start ≤ i)
    (hhi : i < p.stop) : Stored S b t i := by
  have hlen := p.start_add_len
  refine ⟨segment S b p, ?_, p.start, rfl, hlo, ?_⟩
  · rw [h.pool_eq]
    exact List.mem_map_of_mem hp
  · rw [segment_payload (h.short p hp), slice, List.getElem?_map, List.getElem?_range' (by omega)]
    simp only [Option.map_some, Option.some.injEq]
    congr 1
    omega

theorem Holds.of_stored (h : Holds S b t ps k) {i : ℕ} (hlo : k ≤ i) (hhi : i ≤ k + 2 ^ 30)
    (hi : Stored S b t i) : ∃ p ∈ ps, p.start ≤ i ∧ i < p.stop := by
  obtain ⟨f, hf, o, hseq, hoi, hbyte⟩ := hi
  rw [h.pool_eq] at hf
  obtain ⟨p, hp, rfl⟩ := List.mem_map.mp hf
  have hlen := p.start_add_len
  have hshort := h.short p hp
  have hnear := h.start_near hp
  have hlt : i - o < p.len := by
    have := (List.getElem?_eq_some_iff.mp hbyte).1
    rwa [segment_payload hshort, length_slice] at this
  have hsame : p.start = o := by
    have hcmp := picoSeqCompare_near (b := b) (x := p.start) (y := o) (by omega) (by omega)
    rw [← segment_seq (S := S), hseq, picoSeqCompare_eq, BitVec.sub_self] at hcmp
    have hzero : (0#32).toInt = 0 := rfl
    omega
  exact ⟨p, hp, by omega, by omega⟩

/-- HONEST: `rcv_nxt` is the first byte of the stream that is not there, and a block that the peer was
    told of has only bytes that were read or are still in the queue. -/
theorem acks_honest (hF : F.Pairwise Separate) (hmax : maxSize < 2 ^ 30)
    (hm : Meets step (FromPeer S b F nearEdge) (opened b maxSize sackOk) as)
    (hr : run step (opened b maxSize sackOk) as = some r) :
    (∃ n, r.tcp.rcvNxt = adv b n ∧ ¬ Stored S b r.tcp n ∧ r.given.length ≤ n ∧
      ∀ i, r.given.length ≤ i → i < n → Stored S b r.tcp i) ∧
    ∀ s ∈ r.sacks ++ r.told, ∃ l h, s = ⟨adv b l, adv b h⟩ ∧ l < h ∧
      h ≤ r.given.length + 2 ^ 30 ∧ ∀ i, l ≤ i → i < h → i < r.given.length ∨ Stored S b r.tcp i := by
  obtain ⟨ps, h⟩ := inv_run hF hmax hm hr
  have hge := le_reach ps r.given.length
  have hle := reach_le ps r.given.length
  have hsize := h.holds.size_eq
  have hfit := h.holds.size_le
  have hlt := h.holds.max_lt
  refine ⟨⟨reach ps r.given.length, h.nxt, ?_, hge, ?_⟩, ?_⟩
  · intro hstored
    obtain ⟨p, hp, hlo, hhi⟩ := h.holds.of_stored hge (by omega) hstored
    have := h.holds.apart.reach_notMem hp hlo
    omega
  · intro i hk hi
    obtain ⟨p, hp, hlo, hhi⟩ := mem_of_lt_reach hk hi
    exact h.holds.stored hp hlo hhi
  · intro s hs
    have hhonest : Honest b ps r.given.length s := by
      rcases List.mem_append.mp hs with hs | hs
      · exact h.sacks s hs
      · exact h.told s hs
    obtain ⟨l, u, rfl, hlu, hu, hthere⟩ := hhonest
    refine ⟨l, u, rfl, hlu, hu, ?_⟩
    intro i hl hi
    rcases hthere i hl hi with hgiven | ⟨p, hp, hlo, hhi⟩
    · exact .inl hgiven
    · exact .inr (h.holds.stored hp hlo hhi)

theorem acks_honest_overtaken :
    (∃ n, overtakenEnd.tcp.rcvNxt = adv 5 n ∧ ¬ Stored counting 5 overtakenEnd.tcp n ∧
      overtakenEnd.given.length ≤ n ∧
      ∀ i, overtakenEnd.given.length ≤ i → i < n → Stored counting 5 overtakenEnd.tcp i) ∧
    ∀ s ∈ overtakenEnd.sacks ++ overtakenEnd.told, ∃ l h, s = ⟨adv 5 l, adv 5 h⟩ ∧ l < h ∧
      h ≤ overtakenEnd.given.length + 2 ^ 30 ∧
      ∀ i, l ≤ i → i < h → i < overtakenEnd.given.length ∨ Stored counting 5 overtakenEnd.tcp i :=
  acks_honest halves_separate (by decide) overtaken_fromPeer overtaken_runs

/-- The piece at the gap is taken if it fits: it is placed among the others, and the application can
    then read to its end and as far behind it as there is no gap. -/
theorem Inv.filled (h : Inv S b F r ps) (hF : F.Pairwise Separate) (hp : p ∈ F)
    (hlen : p.len < 2 ^ 16) (hstart : p.start = reach ps r.given.length)
    (hhi : p.stop ≤ r.given.length + 2 ^ 30)
    (hfit : r.tcp.tcpqIn.size + p.len ≤ r.tcp.tcpqIn.maxSize) (alloc : Bool) :
    0 < (picoEnqueueSegment r.tcp.tcpqIn (Reassembly.segment S b p)).1 ∧
      Inv S b F (tcpDataIn r (Reassembly.segment S b p) alloc) (place p ps) := by
  have hplt := p.lt
  have hge := le_reach ps r.given.length
  refine ⟨?_, ?_⟩
  · rcases h.holds.enqueue hlen (by omega) hhi (by omega) (h.separate hF hp) with
      ⟨-, hfull | ⟨q, hq, hsame⟩⟩ | ⟨hret, -⟩
    · omega
    · exact absurd (hsame.trans hstart) (h.holds.apart.start_ne_reach hq)
    · exact hret
  · obtain ⟨qs, hqs, ⟨-, hfull⟩ | ⟨rfl, -⟩⟩ := h.segment hF hp hlen (by omega) hhi alloc
    · have := hfull hstart
      omega
    · exact hqs

/-- PROGRESS: a peer that keeps to the windows never finds the queue full of what it sent too early.
    The segment that fills the gap is accepted and stored, `rcv_nxt` moves past it, and one read
    gets everything up to there. -/
theorem gap_filled (hF : F.Pairwise Separate) (hpos : 0 < maxSize) (hmax : maxSize < 2 ^ 30)
    (hm : Meets step (FromPeer S b F Receiver.granted) (opened b maxSize sackOk) as)
    (hr : run step (opened b maxSize sackOk) as = some r) (hp : p ∈ F) (hlen : p.len < 2 ^ 16)
    (hnext : r.tcp.rcvNxt = adv b p.start) (hlo : r.given.length ≤ p.start)
    (hhi : p.stop ≤ r.granted) (alloc : Bool) :
    let r' := next r (.segment (segment S b p) alloc)
    0 < (picoEnqueueSegment r.tcp.tcpqIn (segment S b p)).1 ∧
      segment S b p ∈ r'.tcp.tcpqIn.pool ∧
      ∃ n, p.stop ≤ n ∧ n < r.given.length + 2 ^ 30 ∧ r'.tcp.rcvNxt = adv b n ∧
        ∀ len < 2 ^ 32, (read r' len).given = slice S 0 (min (r.given.length + len) n) := by
  intro r'
  have hroomy := roomy_run hF hpos hmax hm hr
  have hnear := hroomy.near
  obtain ⟨ps, h, hroom, -⟩ := hroomy
  have hge := le_reach ps r.given.length
  have hle := reach_le ps r.given.length
  have hsize := h.holds.size_eq
  have hfit := h.holds.size_le
  have hlt := h.holds.max_lt
  have hplt := p.lt
  rw [nearEdge] at hnear
  have hstart : p.start = reach ps r.given.length := by
    have hcmp := picoSeqCompare_near (b := b) (x := p.start) (y := reach ps r.given.length)
      (by omega) (by omega)
    rw [← hnext, ← h.nxt, picoSeqCompare_eq, BitVec.sub_self] at hcmp
    have hzero : (0#32).toInt = 0 := rfl
    omega
  obtain ⟨hret, hqs⟩ := h.filled hF hp hlen hstart (by omega) (hroom.fits h hF hp hstart hhi) alloc
  have hgiven : r'.given = r.given := (tcpDataIn_frame r (segment S b p) alloc).1
  have hqs : Inv S b F r' (place p ps) := hqs
  have hinside : p ∈ place p ps := mem_place.mpr (.inl rfl)
  have hstop : p.stop ≤ reach (place p ps) r'.given.length := by
    refine hqs.holds.apart.reach_notMem hinside ?_
    rw [hgiven, hstart]
    exact reach_le_place p ps _
  have hbound := reach_le (place p ps) r'.given.length
  have hsize' := hqs.holds.size_eq
  have hfit' := hqs.holds.size_le
  have hlt' := hqs.holds.max_lt
  refine ⟨hret, ?_, _, hstop, ?_, hqs.nxt, ?_⟩
  · rw [hqs.holds.pool_eq]
    exact List.mem_map_of_mem hinside
  · rw [hgiven] at hbound ⊢
    omega
  · intro len hread
    rw [(hqs.read hread).1, hgiven]

/-- The second segment has arrived, the first one not. -/
def early : List Act := [.segment (segment counting 5 (Piece.ofLen 2 1)) true]

/-- The receiver after the segment that came too early. -/
def earlyEnd : Receiver := next (opened 5 8 true) (.segment (segment counting 5 (Piece.ofLen 2 1)) true)

theorem early_fromPeer :
    Meets step (FromPeer counting 5 halves Receiver.granted) (opened 5 8 true) early :=
  ⟨⟨_, .inr rfl, by decide, rfl, by decide, by decide⟩, trivial⟩

theorem early_runs : run step (opened 5 8 true) early = some earlyEnd := rfl

/-- The first segment is accepted, and then both can be read. -/
theorem gap_filled_early :
    let r' := next earlyEnd (.segment (segment counting 5 (Piece.ofLen 0 1)) true)
    0 < (picoEnqueueSegment earlyEnd.tcp.tcpqIn (segment counting 5 (Piece.ofLen 0 1))).1 ∧
      segment counting 5 (Piece.ofLen 0 1) ∈ r'.tcp.tcpqIn.pool ∧
      ∃ n, (Piece.ofLen 0 1).stop ≤ n ∧ n < earlyEnd.given.length + 2 ^ 30 ∧
        r'.tcp.rcvNxt = adv 5 n ∧ ∀ len < 2 ^ 32,
          (read r' len).given = slice counting 0 (min (earlyEnd.given.length + len) n) :=
  gap_filled halves_separate (by decide) (by decide) early_fromPeer early_runs (.inl rfl)
    (by decide) (by decide) (by decide) (by decide) true

end Runs

end FdPicotcp.Reassembly
