import FdPicotcp.Lib.CInt
import Mathlib.Data.List.Sort

/-! The input queue of a picoTCP stream socket (`modules/pico_tcp.c`).

    Segments wait in `tcpq_in`, a tree ordered by sequence number; `rcv_processed` is the next byte
    the application gets and `rcv_nxt` the next byte expected from the peer, both modulo `2^32`.
    `tcp_data_in_expected` appends an in-order segment and `pico_tcp_read` copies bytes out of the
    head of the queue. The tree is a list in tree order, a payload is a list of bytes.

    On a queue without holes (`InOrder`) the two are the two ends of a byte stream: the read gives
    `min len` of the unread bytes, in order, and the rest stays unread. -/

namespace FdPicotcp.TcpQueue
open CInt

/-- `struct tcp_input_segment`; `payload_len`, a `uint16_t`, is the length of `payload`. -/
structure TcpInputSegment where
  seq : BitVec 32
  payload : List UInt8
  len_lt : payload.length < 2 ^ 16
  deriving DecidableEq, Repr

/-- A segment of the bytes, as many as fit. -/
def TcpInputSegment.ofBytes (seq : BitVec 32) (bytes : List UInt8) : TcpInputSegment :=
  ⟨seq, bytes.take (2 ^ 16 - 1), by rw [List.length_take]; omega⟩

/-- `payload_len` -/
def TcpInputSegment.payloadLen (f : TcpInputSegment) : ℕ := f.payload.length

/-- Sequence number of the byte after the segment. -/
def TcpInputSegment.next (f : TcpInputSegment) : BitVec 32 := f.seq + BitVec.ofNat 32 f.payloadLen

/-- `struct pico_tcp_queue`: `size` counts bytes, `frames` segments. -/
structure PicoTcpQueue where
  pool : List TcpInputSegment
  maxSize : ℕ
  size : ℕ
  frames : ℕ
  deriving DecidableEq, Repr

/-- The input side of `struct pico_socket_tcp`. -/
structure PicoSocketTcp where
  tcpqIn : PicoTcpQueue
  rcvNxt : BitVec 32
  rcvProcessed : BitVec 32
  remoteClosed : Bool
  deriving DecidableEq, Repr

/-- Circular comparison of sequence numbers (`stack/pico_stack.c`). -/
def picoSeqCompare (a b : BitVec 32) : ℤ :=
  let thresh := 2 ^ 31 - 1
  if b < a then
    if thresh < (a - b).toNat then toInt32 (-toInt32 (b - a).toNat) else toInt32 (a - b).toNat
  else if a < b then
    if thresh < (b - a).toNat then toInt32 (a - b).toNat else toInt32 (-toInt32 (b - a).toNat)
  else 0

/-- `first_segment` -/
def firstSegment (tq : PicoTcpQueue) : Option TcpInputSegment := tq.pool.head?

/-- `pico_tree_findKey` in a tree ordered by the sequence numbers of its elements. -/
def findSeq {β : Type*} (seqOf : β → BitVec 32) (pool : List β) (seq : BitVec 32) : Option β :=
  pool.find? fun f => picoSeqCompare (seqOf f) seq = 0

/-- `pico_tree_insert` into such a tree: the place of a new node in tree order. -/
def insertSeq {β : Type*} (seqOf : β → BitVec 32) (f : β) (pool : List β) : List β :=
  pool.orderedInsert (fun f g => picoSeqCompare (seqOf f) (seqOf g) < 0) f

/-- `peek_segment` of an input queue. -/
def peekSegment (tq : PicoTcpQueue) (seq : BitVec 32) : Option TcpInputSegment :=
  findSeq TcpInputSegment.seq tq.pool seq

/-- `next_segment` looks for the number that follows, so a gap ends the search. -/
def nextSegment (tq : PicoTcpQueue) (cur : TcpInputSegment) : Option TcpInputSegment :=
  peekSegment tq cur.next

/-- `pico_tree_insert` of `tcpq_in`, whose order is `input_segment_compare`. -/
def treeInsert (f : TcpInputSegment) (pool : List TcpInputSegment) : List TcpInputSegment :=
  insertSeq TcpInputSegment.seq f pool

/-- Refused (0) when the queue would outgrow `max_size` or holds that sequence number already. -/
def doEnqueueSegment (tq : PicoTcpQueue) (f : TcpInputSegment) : ℤ × PicoTcpQueue :=
  if tq.maxSize < tq.size + f.payloadLen then (0, tq)
  else if (peekSegment tq f.seq).isSome then (0, tq)
  else
    (f.payloadLen, { tq with
      pool := treeInsert f tq.pool
      size := tq.size + f.payloadLen
      frames := if 0 < f.payloadLen then tq.frames + 1 else tq.frames })

/-- `pico_enqueue_segment`: an empty segment is refused. -/
def picoEnqueueSegment (tq : PicoTcpQueue) (f : TcpInputSegment) : ℤ × PicoTcpQueue :=
  if f.payloadLen = 0 then (-1, tq) else doEnqueueSegment tq f

/-- `pico_discard_segment` -/
def picoDiscardSegment (tq : PicoTcpQueue) (f : TcpInputSegment) : PicoTcpQueue :=
  if (peekSegment tq f.seq).isSome then
    { tq with
      pool := tq.pool.eraseP fun g => picoSeqCompare g.seq f.seq = 0
      size := tq.size - f.payloadLen
      frames := if 0 < f.payloadLen then tq.frames - 1 else tq.frames }
  else tq

/-- The loop of `release_until`: drop segments that end at or before `seq`. Every turn discards one
    segment, so the number of segments bounds the turns. -/
def releaseUntilLoop (seq : BitVec 32) :
    ℕ → PicoTcpQueue → Option TcpInputSegment → PicoTcpQueue
  | 0, q, _ => q
  | _ + 1, q, none => q
  | n + 1, q, some cur =>
    if picoSeqCompare cur.next seq ≤ 0 then
      releaseUntilLoop seq n (picoDiscardSegment q cur) (nextSegment q cur)
    else q

/-- `release_until` -/
def releaseUntil (q : PicoTcpQueue) (seq : BitVec 32) : PicoTcpQueue :=
  releaseUntilLoop seq q.pool.length q (firstSegment q)

/-- How much of the segment the current turn copies, in `uint32_t` arithmetic. -/
def tcpReadInFrameLen (f : TcpInputSegment) (inFrameOff : ℤ) (totRdLen readOpLen : ℕ) : ℕ :=
  let inFrameLen := if 0 < inFrameOff then toUint32 (f.payloadLen - inFrameOff) else f.payloadLen
  if readOpLen < toUint32 (inFrameLen + totRdLen) then toUint32 (readOpLen - totRdLen)
  else inFrameLen

/-- `tcp_read_check_segment_done` -/
def tcpReadCheckSegmentDone (tq : PicoTcpQueue) (f : TcpInputSegment) (inFrameLen : ℕ) :
    PicoTcpQueue :=
  if inFrameLen = 0 ∨ inFrameLen = f.payloadLen then picoDiscardSegment tq f else tq

/-- The loop of `pico_tcp_read`, up to `tcp_read_finish`: the socket, `tot_rd_len` and the bytes
    copied so far. A turn that does not end the loop takes at least one of the queued bytes, so `size`
    bounds the turns. -/
def picoTcpReadLoop (len : ℕ) :
    ℕ → PicoSocketTcp → ℕ → List UInt8 → PicoSocketTcp × ℕ × List UInt8
  | 0, t, tot, buf => (t, tot, buf)
  | n + 1, t, tot, buf =>
    if len ≤ tot then (t, tot, buf)
    else
      -- To be sure we don't have garbage at the beginning
      let q := releaseUntil t.tcpqIn t.rcvProcessed
      match firstSegment q with
      | none => ({ t with tcpqIn := q }, tot, buf)
      | some f =>
        let inFrameOff := picoSeqCompare t.rcvProcessed f.seq
        -- a hole at the beginning of data, awaiting retransmissions
        if inFrameOff < 0 then ({ t with tcpqIn := q }, tot, buf)
        else
          let inFrameLen := tcpReadInFrameLen f inFrameOff tot len
          picoTcpReadLoop len n
            { t with
              tcpqIn := tcpReadCheckSegmentDone q f inFrameLen
              rcvProcessed := t.rcvProcessed + BitVec.ofNat 32 inFrameLen }
            (tot + inFrameLen) (buf ++ (f.payload.drop inFrameOff.toNat).take inFrameLen)

/-- `pico_tcp_read` -/
def picoTcpRead (t : PicoSocketTcp) (len : ℕ) : PicoSocketTcp × ℕ × List UInt8 :=
  picoTcpReadLoop len (t.tcpqIn.size + 1) t 0 []

/-- Scroll `rcv_nxt` over the segments that are already there. -/
def scrollRcvNxt (tq : PicoTcpQueue) : ℕ → BitVec 32 → BitVec 32
  | 0, nxt => nxt
  | n + 1, nxt =>
    match peekSegment tq nxt with
    | none => nxt
    | some f => scrollRcvNxt tq n (nxt + BitVec.ofNat 32 f.payloadLen)

/-- `tcp_data_in_expected`, with whether `PICO_SOCK_EV_RD` becomes pending. A segment that is not
    exactly the expected one is an uninteresting retransmission. -/
def tcpDataInExpected (t : PicoSocketTcp) (f : TcpInputSegment) : PicoSocketTcp × Bool :=
  if picoSeqCompare f.seq t.rcvNxt = 0 then
    let (ret, q) := picoEnqueueSegment t.tcpqIn f
    if ret ≤ 0 then (t, false)
    else ({ t with tcpqIn := q, rcvNxt := scrollRcvNxt q q.pool.length f.next }, true)
  else (t, false)

/-- The sequence number `k` bytes further on. -/
def adv (a : BitVec 32) (k : ℕ) : BitVec 32 := a + BitVec.ofNat 32 k

/-- Bytes held by a list of segments. -/
def total (pool : List TcpInputSegment) : ℕ := (pool.map (·.payloadLen)).sum

/-- Non-empty segments, each starting where the one before ends, from `a` to `e`. -/
def Chain : BitVec 32 → List TcpInputSegment → BitVec 32 → Prop
  | a, [], e => a = e
  | a, f :: fs, e => f.seq = a ∧ 0 < f.payloadLen ∧ Chain f.next fs e

/-- The length of the first segment. -/
def headLen (pool : List TcpInputSegment) : ℕ := pool.head?.elim 0 (·.payloadLen)

/-- How far the application has read into the first segment. -/
def readOff (t : PicoSocketTcp) : ℕ :=
  t.tcpqIn.pool.head?.elim 0 fun f => (t.rcvProcessed - f.seq).toNat

/-- The bytes from `rcv_processed` to the end of the queue. -/
def unread (t : PicoSocketTcp) : List UInt8 :=
  (t.tcpqIn.pool.flatMap (·.payload)).drop (readOff t)

/-- A queue without holes that ends at `e`, read inside its first segment or at the end of it. -/
structure InOrder (t : PicoSocketTcp) (e : BitVec 32) : Prop where
  chain : Chain (t.tcpqIn.pool.head?.elim t.rcvProcessed (·.seq)) t.tcpqIn.pool e
  off_le : readOff t ≤ headLen t.tcpqIn.pool
  size_eq : t.tcpqIn.size = total t.tcpqIn.pool
  frames_eq : t.tcpqIn.frames = t.tcpqIn.pool.length
  size_le : t.tcpqIn.size ≤ t.tcpqIn.maxSize
  max_lt : t.tcpqIn.maxSize < 2 ^ 31

@[simp] theorem adv_zero (a : BitVec 32) : adv a 0 = a := by simp [adv]

theorem adv_adv (a : BitVec 32) (m n : ℕ) : adv (adv a m) n = adv a (m + n) := by
  simp only [adv, BitVec.ofNat_add, BitVec.add_assoc]

theorem TcpInputSegment.next_eq (f : TcpInputSegment) : f.next = adv f.seq f.payloadLen := rfl

theorem adv_sub_toNat (a : BitVec 32) {k : ℕ} (hk : k < 2 ^ 32) : (adv a k - a).toNat = k := by
  have ha := a.isLt
  simp only [adv, BitVec.toNat_sub, BitVec.toNat_add, BitVec.toNat_ofNat]
  omega

/-- CIRCULAR ORDER: the comparison is the signed difference. -/
theorem picoSeqCompare_eq (a b : BitVec 32) : picoSeqCompare a b = (a - b).toInt := by
  have ha := a.isLt
  have hb := b.isLt
  simp only [picoSeqCompare, BitVec.lt_def, toInt32_eq, BitVec.toInt_eq_toNat_cond,
    BitVec.toNat_sub]
  split_ifs <;> omega

/-- Positions of one window of `2^31` bytes compare like their offsets. -/
theorem picoSeqCompare_adv (a : BitVec 32) {m n : ℕ} (hm : m < 2 ^ 31) (hn : n < 2 ^ 31) :
    picoSeqCompare (adv a m) (adv a n) = m - n := by
  have ha := a.isLt
  rw [picoSeqCompare_eq]
  simp only [adv, BitVec.toInt_eq_toNat_cond, BitVec.toNat_sub, BitVec.toNat_add, BitVec.toNat_ofNat]
  split_ifs <;> omega

/-- A segment with data does not start where it ends. -/
theorem picoSeqCompare_next {f : TcpInputSegment} (hpos : 0 < f.payloadLen) :
    picoSeqCompare f.seq f.next ≠ 0 := by
  have hlt : f.payloadLen < 2 ^ 16 := f.len_lt
  have hoff := picoSeqCompare_adv f.seq (m := 0) (n := f.payloadLen) (by omega) (by omega)
  rw [adv_zero, ← f.next_eq] at hoff
  omega

@[simp] theorem total_nil : total [] = 0 := rfl

@[simp] theorem total_cons (f : TcpInputSegment) (fs : List TcpInputSegment) :
    total (f :: fs) = f.payloadLen + total fs := rfl

theorem total_eq_length (pool : List TcpInputSegment) :
    total pool = (pool.flatMap (·.payload)).length := by
  rw [List.length_flatMap, total]
  rfl

/-- A chain ends `total` bytes after its start. -/
theorem Chain.end_eq : ∀ {pool : List TcpInputSegment} {a e : BitVec 32},
    Chain a pool e → e = adv a (total pool)
  | [], a, e, h => by rw [total_nil, adv_zero]; exact h.symm
  | f :: fs, a, e, ⟨hseq, _, htail⟩ => by
    rw [htail.end_eq, f.next_eq, hseq, adv_adv, total_cons]

/-- Every segment of a chain starts at an offset below the end. -/
theorem Chain.mem {b : BitVec 32} : ∀ {pool : List TcpInputSegment} {m : ℕ} {e : BitVec 32},
    Chain (adv b m) pool e → ∀ f ∈ pool, ∃ j, f.seq = adv b j ∧ m ≤ j ∧ j < m + total pool
  | g :: gs, m, e, ⟨hseq, hpos, htail⟩, f, hf => by
    rcases List.mem_cons.mp hf with rfl | hf
    · exact ⟨m, hseq, le_rfl, by rw [total_cons]; omega⟩
    · rw [g.next_eq, hseq, adv_adv] at htail
      obtain ⟨j, hj, hlo, hhi⟩ := htail.mem f hf
      exact ⟨j, hj, by omega, by rw [total_cons]; omega⟩

/-- All segments of a chain lie before its end. -/
theorem Chain.compare_end {a e : BitVec 32} {pool : List TcpInputSegment} (h : Chain a pool e)
    (ht : total pool < 2 ^ 31) {f : TcpInputSegment} (hf : f ∈ pool) :
    0 < picoSeqCompare e f.seq ∧ picoSeqCompare f.seq e < 0 := by
  rw [← adv_zero a] at h
  obtain ⟨j, hj, _, hhi⟩ := h.mem f hf
  rw [h.end_eq, hj, adv_adv, picoSeqCompare_adv a (by omega) (by omega),
    picoSeqCompare_adv a (by omega) (by omega)]
  omega

/-- No segment of a chain starts where the chain ends. -/
theorem Chain.peek_end {a e : BitVec 32} {tq : PicoTcpQueue} (h : Chain a tq.pool e)
    (ht : total tq.pool < 2 ^ 31) : peekSegment tq e = none := by
  refine List.find?_eq_none.mpr fun f hf => ?_
  have hlt := (h.compare_end ht hf).2
  rw [decide_eq_true_eq]
  omega

theorem Chain.append {f : TcpInputSegment} (hpos : 0 < f.payloadLen) :
    ∀ {pool : List TcpInputSegment} {a : BitVec 32}, Chain a pool f.seq →
      Chain a (pool ++ [f]) f.next
  | [], _, h => ⟨h.symm, hpos, rfl⟩
  | _ :: _, _, ⟨hseq, hp, htail⟩ => ⟨hseq, hp, htail.append hpos⟩

theorem insertSeq_between {β : Type*} {seqOf : β → BitVec 32} {f : β} {pre post : List β}
    (hpre : ∀ g ∈ pre, ¬ picoSeqCompare (seqOf f) (seqOf g) < 0)
    (hpost : ∀ g ∈ post, picoSeqCompare (seqOf f) (seqOf g) < 0) :
    insertSeq seqOf f (pre ++ post) = pre ++ f :: post := by
  rw [insertSeq]
  induction pre with
  | nil =>
    cases post with
    | nil => rfl
    | cons g post =>
      rw [List.nil_append, List.orderedInsert_cons, if_pos (hpost g (List.mem_cons_self ..))]
      rfl
  | cons g pre ih =>
    rw [List.cons_append, List.orderedInsert_cons, if_neg (hpre g (List.mem_cons_self ..)),
      ih fun x hx => hpre x (List.mem_cons_of_mem g hx), List.cons_append]

theorem insertSeq_eq_append {β : Type*} {seqOf : β → BitVec 32} {f : β} {pool : List β}
    (h : ∀ g ∈ pool, ¬ picoSeqCompare (seqOf f) (seqOf g) < 0) :
    insertSeq seqOf f pool = pool ++ [f] := by
  have hend := insertSeq_between h (List.forall_mem_nil _)
  rwa [List.append_nil] at hend

/-- A segment that starts at the end of a chain and fits is appended. -/
theorem picoEnqueueSegment_end {a : BitVec 32} {tq : PicoTcpQueue} {f : TcpInputSegment}
    (h : Chain a tq.pool f.seq) (ht : total tq.pool < 2 ^ 31) (hpos : 0 < f.payloadLen)
    (hfit : tq.size + f.payloadLen ≤ tq.maxSize) :
    picoEnqueueSegment tq f = ((f.payloadLen : ℤ), { tq with
      pool := tq.pool ++ [f]
      size := tq.size + f.payloadLen
      frames := tq.frames + 1 }) := by
  have hins : treeInsert f tq.pool = tq.pool ++ [f] := by
    refine insertSeq_eq_append ?_
    intro g hg
    have := (h.compare_end ht hg).1
    omega
  rw [picoEnqueueSegment, if_neg (by omega), doEnqueueSegment, if_neg (by omega), h.peek_end ht,
    hins, if_pos hpos]
  rfl

/-- Discarding the first segment of a chain. -/
theorem picoDiscardSegment_head {tq : PicoTcpQueue} {f : TcpInputSegment}
    {fs : List TcpInputSegment} (hp : tq.pool = f :: fs) (hpos : 0 < f.payloadLen) :
    picoDiscardSegment tq f = { tq with
      pool := fs
      size := tq.size - f.payloadLen
      frames := tq.frames - 1 } := by
  have hself : picoSeqCompare f.seq f.seq = 0 := by rw [picoSeqCompare_eq, BitVec.sub_self]; rfl
  rw [picoDiscardSegment, peekSegment, findSeq, hp, List.find?_cons_of_pos (by simp [hself]),
    List.eraseP_cons_of_pos (by simp [hself]), if_pos hpos]
  rfl

/-- A segment that ends after `seq` stops the release. -/
theorem releaseUntilLoop_stop {seq : BitVec 32} {q : PicoTcpQueue} {f : TcpInputSegment}
    (h : 0 < picoSeqCompare f.next seq) : ∀ n, releaseUntilLoop seq n q (some f) = q
  | 0 => rfl
  | n + 1 => by rw [releaseUntilLoop, if_neg (by omega)]

/-- The release drops the first segment of a chain exactly when it has been read to its end. -/
theorem releaseUntil_head {a e : BitVec 32} {q : PicoTcpQueue} {f : TcpInputSegment}
    {fs : List TcpInputSegment} {k : ℕ} (hp : q.pool = f :: fs) (h : Chain a (f :: fs) e)
    (ht : total (f :: fs) < 2 ^ 31) (hk : k ≤ f.payloadLen) :
    releaseUntil q (adv a k) = if k = f.payloadLen then picoDiscardSegment q f else q := by
  obtain ⟨rfl, hpos, htail⟩ := h
  rw [total_cons] at ht
  have hfirst : firstSegment q = some f := by rw [firstSegment, hp]; rfl
  rw [releaseUntil, hfirst, hp, List.length_cons]
  by_cases hend : k = f.payloadLen
  · rw [if_pos hend, hend, releaseUntilLoop,
      if_pos (by rw [f.next_eq, picoSeqCompare_adv _ (by omega) (by omega)]; omega)]
    cases fs with
    | nil => rfl
    | cons g gs =>
      obtain ⟨hg, hgpos, _⟩ := htail
      rw [total_cons] at ht
      have hnext : nextSegment q f = some g := by
        rw [nextSegment, peekSegment, findSeq, hp, List.find?_cons_of_neg, List.find?_cons_of_pos]
        · rw [hg, decide_eq_true_eq, picoSeqCompare_eq, BitVec.sub_self]; rfl
        · rw [decide_eq_true_eq]
          exact picoSeqCompare_next hpos
      rw [hnext]
      refine releaseUntilLoop_stop ?_ _
      rw [g.next_eq, hg, f.next_eq, adv_adv]
      rw [picoSeqCompare_adv _ (by omega) (by omega)]
      omega
  · rw [if_neg hend]
    refine releaseUntilLoop_stop ?_ _
    rw [f.next_eq, picoSeqCompare_adv _ (by omega) (by omega)]
    omega

theorem adv_readOff {t : PicoSocketTcp} {f : TcpInputSegment} {fs : List TcpInputSegment}
    (hp : t.tcpqIn.pool = f :: fs) : t.rcvProcessed = adv f.seq (readOff t) := by
  rw [readOff, hp]
  simp only [List.head?_cons, Option.elim_some, adv, BitVec.ofNat_toNat, BitVec.setWidth_eq]
  rw [BitVec.add_comm, BitVec.sub_add_cancel]

/-- A queue whose first unread byte is the first byte of the queue. -/
theorem inOrder_of_chain {t : PicoSocketTcp} {e : BitVec 32}
    (h : Chain t.rcvProcessed t.tcpqIn.pool e) (hsize : t.tcpqIn.size = total t.tcpqIn.pool)
    (hframes : t.tcpqIn.frames = t.tcpqIn.pool.length) (hle : t.tcpqIn.size ≤ t.tcpqIn.maxSize)
    (hmax : t.tcpqIn.maxSize < 2 ^ 31) :
    InOrder t e ∧ readOff t = 0 ∧ unread t = t.tcpqIn.pool.flatMap (·.payload) := by
  have hoff : readOff t = 0 := by
    rw [readOff]
    cases hp : t.tcpqIn.pool with
    | nil => rfl
    | cons f fs =>
      rw [hp] at h
      rw [List.head?_cons, Option.elim_some, h.1, BitVec.sub_self]
      rfl
  refine ⟨⟨?_, by rw [hoff]; exact Nat.zero_le _, hsize, hframes, hle, hmax⟩, hoff,
    by rw [unread, hoff, List.drop_zero]⟩
  cases hp : t.tcpqIn.pool with
  | nil => rw [hp] at h; exact h
  | cons f fs => rw [hp] at h; exact ⟨rfl, h.2⟩

theorem InOrder.total_lt {t : PicoSocketTcp} {e : BitVec 32} (h : InOrder t e) :
    total t.tcpqIn.pool < 2 ^ 31 := by
  have := h.size_eq
  have := h.size_le
  have := h.max_lt
  omega

theorem InOrder.chain_cons {t : PicoSocketTcp} {e : BitVec 32} {f : TcpInputSegment}
    {fs : List TcpInputSegment} (h : InOrder t e) (hp : t.tcpqIn.pool = f :: fs) :
    Chain f.seq (f :: fs) e ∧ readOff t ≤ f.payloadLen := by
  have hc := h.chain
  have ho := h.off_le
  rw [hp] at hc ho
  exact ⟨hc, ho⟩

theorem unread_length_le (t : PicoSocketTcp) : (unread t).length ≤ total t.tcpqIn.pool := by
  rw [unread, List.length_drop, ← total_eq_length]
  exact Nat.sub_le ..

/-- The socket after `release_until` at the start of a turn. -/
def released (t : PicoSocketTcp) : PicoSocketTcp :=
  { t with tcpqIn := releaseUntil t.tcpqIn t.rcvProcessed }

/-- The release keeps the queue in order and drops no unread byte; what is left is empty or has an
    unread byte in its first segment. -/
theorem InOrder.released {t : PicoSocketTcp} {e : BitVec 32} (h : InOrder t e) :
    InOrder (released t) e ∧ unread (released t) = unread t ∧
      readOff (released t) ≤ headLen (released t).tcpqIn.pool - 1 := by
  cases hp : t.tcpqIn.pool with
  | nil =>
    have hrel : TcpQueue.released t = t := by
      rw [TcpQueue.released, releaseUntil, firstSegment, hp]; rfl
    rw [hrel, readOff, hp]
    exact ⟨h, rfl, Nat.zero_le _⟩
  | cons f fs =>
    obtain ⟨hc, hoff⟩ := h.chain_cons hp
    have hlt := h.total_lt
    rw [hp] at hlt
    have hrel := releaseUntil_head hp hc hlt hoff
    rw [← adv_readOff hp] at hrel
    by_cases hend : readOff t = f.payloadLen
    · rw [if_pos hend, picoDiscardSegment_head hp hc.2.1] at hrel
      have hproc : t.rcvProcessed = f.next := by rw [adv_readOff hp, hend]; rfl
      have hsize := h.size_eq
      have hframes := h.frames_eq
      have hle := h.size_le
      rw [hp] at hsize hframes
      rw [total_cons] at hsize
      rw [List.length_cons] at hframes
      obtain ⟨hin, hzero, hun⟩ := inOrder_of_chain (t := TcpQueue.released t) (e := e)
        (by rw [TcpQueue.released, hrel, hproc]; exact hc.2.2)
        (by rw [TcpQueue.released, hrel]; simp only; omega)
        (by rw [TcpQueue.released, hrel]; simp only; omega)
        (by rw [TcpQueue.released, hrel]; simp only; omega)
        (by rw [TcpQueue.released, hrel]; exact h.max_lt)
      refine ⟨hin, ?_, by rw [hzero]; exact Nat.zero_le _⟩
      rw [hun, unread, hp, hend, TcpQueue.released, hrel, List.flatMap_cons]
      exact List.drop_left.symm
    · rw [if_neg hend] at hrel
      have hself : TcpQueue.released t = t := by rw [TcpQueue.released, hrel]
      rw [hself, hp]
      exact ⟨h, rfl, Nat.le_sub_one_of_lt (lt_of_le_of_ne hoff hend)⟩

/-- Reading `n` bytes further inside the first segment. -/
theorem InOrder.advance {t : PicoSocketTcp} {e : BitVec 32} {f : TcpInputSegment}
    {fs : List TcpInputSegment} {n : ℕ} (h : InOrder t e) (hp : t.tcpqIn.pool = f :: fs)
    (hn : readOff t + n ≤ f.payloadLen) :
    InOrder { t with rcvProcessed := adv t.rcvProcessed n } e ∧
      unread { t with rcvProcessed := adv t.rcvProcessed n } = (unread t).drop n := by
  have hlen := f.len_lt
  have hlt : readOff t + n < 2 ^ 32 := by
    rw [TcpInputSegment.payloadLen] at hn; omega
  have hoff : readOff { t with rcvProcessed := adv t.rcvProcessed n } = readOff t + n := by
    conv_lhs => rw [readOff, adv_readOff hp, adv_adv, hp]
    exact adv_sub_toNat f.seq hlt
  refine ⟨⟨?_, ?_, h.size_eq, h.frames_eq, h.size_le, h.max_lt⟩, ?_⟩
  · rw [hp]; exact (h.chain_cons hp).1
  · rw [hoff, hp]; exact hn
  · rw [unread, hoff, unread, List.drop_drop]

theorem tcpReadInFrameLen_eq {f : TcpInputSegment} {k tot len : ℕ} (hk : k ≤ f.payloadLen)
    (htot : tot ≤ len) (hlen : len < 2 ^ 32) (hsum : f.payloadLen - k + tot < 2 ^ 32) :
    tcpReadInFrameLen f k tot len = min (f.payloadLen - k) (len - tot) := by
  have hlt : f.payloadLen < 2 ^ 16 := f.len_lt
  simp only [tcpReadInFrameLen, toUint32]
  split_ifs <;> omega

/-- One turn of the read loop on a released queue: `n` bytes of the first segment are copied. -/
theorem readTurn_inOrder {t : PicoSocketTcp} {e : BitVec 32} {f : TcpInputSegment}
    {fs : List TcpInputSegment} {n : ℕ} (h : InOrder t e) (hp : t.tcpqIn.pool = f :: fs)
    (hpos : 0 < n) (hn : readOff t + n ≤ f.payloadLen) :
    let u : PicoSocketTcp := { t with
      tcpqIn := tcpReadCheckSegmentDone t.tcpqIn f n
      rcvProcessed := adv t.rcvProcessed n }
    InOrder u e ∧ unread u = (unread t).drop n := by
  intro u
  obtain ⟨hin, hun⟩ := h.advance hp hn
  by_cases hdone : n = f.payloadLen
  · -- the whole segment was copied: discarding it is what the next release would do
    have hu : u = released { t with rcvProcessed := adv t.rcvProcessed n } := by
      have hlt := h.total_lt
      rw [hp] at hlt
      have hzero : readOff t = 0 := by omega
      have hproc : adv t.rcvProcessed n = adv f.seq f.payloadLen := by
        rw [adv_readOff hp, hzero, adv_zero, hdone]
      simp only [u, released, hproc]
      rw [releaseUntil_head hp (h.chain_cons hp).1 hlt le_rfl, if_pos rfl,
        tcpReadCheckSegmentDone, if_pos (.inr hdone)]
    rw [hu]
    exact ⟨hin.released.1, hin.released.2.1.trans hun⟩
  · have hu : u = { t with rcvProcessed := adv t.rcvProcessed n } := by
      simp only [u, tcpReadCheckSegmentDone, if_neg (not_or_intro hpos.ne' hdone)]
    rw [hu]
    exact ⟨hin, hun⟩

theorem picoTcpReadLoop_done {len tot : ℕ} (h : len ≤ tot) (t : PicoSocketTcp)
    (buf : List UInt8) : ∀ n, picoTcpReadLoop len n t tot buf = (t, tot, buf)
  | 0 => rfl
  | n + 1 => by rw [picoTcpReadLoop, if_pos h]

/-- LOOP: the read loop hands out the unread bytes in order until it has `len` of them. Where it
    runs out of them nothing stays queued. -/
theorem picoTcpReadLoop_inOrder {len : ℕ} {e : BitVec 32} (hlen : len < 2 ^ 32) :
    ∀ (n : ℕ) (t : PicoSocketTcp) (tot : ℕ) (buf : List UInt8), InOrder t e →
      (unread t).length < n → tot ≤ len → (unread t).length + tot < 2 ^ 31 →
      ∃ u, picoTcpReadLoop len n t tot buf =
          (u, min len (tot + (unread t).length), buf ++ (unread t).take (len - tot)) ∧
        InOrder u e ∧ unread u = (unread t).drop (len - tot) ∧
          (tot + (unread t).length < len → u.tcpqIn.pool = [])
  | 0, t, tot, buf, _, hfuel, _, _ => absurd hfuel (Nat.not_lt_zero _)
  | n + 1, t, tot, buf, h, hfuel, htot, hsum => by
    by_cases hfull : len ≤ tot
    · obtain rfl : len = tot := by omega
      rw [picoTcpReadLoop_done le_rfl, Nat.sub_self]
      exact ⟨t, by simp, h, rfl, fun hmore => by omega⟩
    · obtain ⟨hrin, hrun, hroff⟩ := h.released
      rw [← hrun] at hfuel hsum ⊢
      have hturn : picoTcpReadLoop len (n + 1) t tot buf =
          match firstSegment (released t).tcpqIn with
          | none => (released t, tot, buf)
          | some f =>
            let inFrameOff := picoSeqCompare (released t).rcvProcessed f.seq
            if inFrameOff < 0 then (released t, tot, buf)
            else
              let inFrameLen := tcpReadInFrameLen f inFrameOff tot len
              picoTcpReadLoop len n
                { released t with
                  tcpqIn := tcpReadCheckSegmentDone (released t).tcpqIn f inFrameLen
                  rcvProcessed := adv (released t).rcvProcessed inFrameLen }
                (tot + inFrameLen)
                (buf ++ (f.payload.drop inFrameOff.toNat).take inFrameLen) := by
        rw [picoTcpReadLoop, if_neg hfull]
        rfl
      rw [hturn]
      generalize released t = r at hrin hroff hfuel hsum
      cases hp : r.tcpqIn.pool with
      | nil =>
        have hnone : unread r = [] := by rw [unread, hp]; simp
        rw [firstSegment, hp, hnone]
        exact ⟨r, by simp [Nat.min_eq_right htot], hrin, by rw [hnone]; simp, fun _ => hp⟩
      | cons f fs =>
        obtain ⟨hc, hoff⟩ := hrin.chain_cons hp
        have hlt : f.payloadLen < 2 ^ 16 := f.len_lt
        have hpos := hc.2.1
        rw [hp] at hroff
        have hroff : readOff r ≤ f.payloadLen - 1 := hroff
        have hcmp : picoSeqCompare r.rcvProcessed f.seq = readOff r := by
          have := picoSeqCompare_adv f.seq (m := readOff r) (n := 0) (by omega) (by omega)
          rwa [adv_zero, ← adv_readOff hp, Nat.cast_zero, sub_zero] at this
        have hunread : unread r = f.payload.drop (readOff r) ++ fs.flatMap (·.payload) := by
          rw [unread, hp, List.flatMap_cons, List.drop_append_of_le_length hoff]
        have hulen : (unread r).length = f.payloadLen - readOff r + total fs := by
          rw [hunread, List.length_append, List.length_drop, ← total_eq_length]
          rfl
        have hin : tcpReadInFrameLen f (readOff r) tot len =
            min (f.payloadLen - readOff r) (len - tot) :=
          tcpReadInFrameLen_eq hoff htot hlen (by omega)
        simp only [firstSegment, hp, List.head?_cons, hcmp, hin]
        rw [if_neg (by omega), Int.toNat_natCast]
        generalize hm : min (f.payloadLen - readOff r) (len - tot) = m
        obtain ⟨htin, htun⟩ := readTurn_inOrder (n := m) hrin hp (by omega) (by omega)
        obtain ⟨u, hu, huin, huun, huempty⟩ := picoTcpReadLoop_inOrder hlen n _ (tot + m)
          (buf ++ (f.payload.drop (readOff r)).take m) htin
          (by rw [htun, List.length_drop]; omega) (by omega)
          (by rw [htun, List.length_drop]; omega)
        rw [htun, List.length_drop] at huempty
        refine ⟨u, ?_, huin, ?_, fun hmore => huempty (by omega)⟩
        · rw [hu, htun, List.length_drop]
          refine Prod.ext rfl (Prod.ext ?_ ?_)
          · simp only; omega
          · have htake : (f.payload.drop (readOff r)).take m = (unread r).take m := by
              rw [hunread, List.take_append_of_le_length]
              rw [List.length_drop, ← TcpInputSegment.payloadLen]; omega
            have hsplit : len - tot = m + (len - (tot + m)) := by omega
            rw [htake, List.append_assoc, hsplit, List.take_add]
        · rw [huun, htun, List.drop_drop]
          congr 1
          omega

/-- READ: on a queue in order `pico_tcp_read` copies the first `len` unread bytes and keeps the
    rest. -/
theorem picoTcpRead_inOrder {t : PicoSocketTcp} {e : BitVec 32} {len : ℕ} (h : InOrder t e)
    (hlen : len < 2 ^ 32) :
    ∃ u, picoTcpRead t len = (u, min len (unread t).length, (unread t).take len) ∧
      InOrder u e ∧ unread u = (unread t).drop len ∧
        ((unread t).length < len → u.tcpqIn.pool = []) := by
  have hle := unread_length_le t
  have hlt := h.total_lt
  have hsize := h.size_eq
  obtain ⟨u, hu, hin, hun, hempty⟩ := picoTcpReadLoop_inOrder hlen (t.tcpqIn.size + 1) t 0 [] h
    (by omega) (Nat.zero_le _) (by omega)
  rw [Nat.zero_add] at hempty
  refine ⟨u, ?_, hin, hun, hempty⟩
  rw [picoTcpRead, hu, Nat.zero_add, Nat.sub_zero, List.nil_append]

/-- An empty queue is read without effect. -/
theorem picoTcpRead_nil {t : PicoSocketTcp} (hp : t.tcpqIn.pool = []) (len : ℕ) :
    (picoTcpRead t len).1 = t := by
  have hrel : releaseUntil t.tcpqIn t.rcvProcessed = t.tcpqIn := by
    rw [releaseUntil, firstSegment, hp]; rfl
  rw [picoTcpRead, picoTcpReadLoop]
  split
  · rfl
  · simp only [hrel, firstSegment, hp, List.head?_nil]

/-- The read loop moves no other field. -/
theorem picoTcpReadLoop_frame (len : ℕ) :
    ∀ (n : ℕ) (t : PicoSocketTcp) (tot : ℕ) (buf : List UInt8),
      (picoTcpReadLoop len n t tot buf).1.rcvNxt = t.rcvNxt ∧
        (picoTcpReadLoop len n t tot buf).1.remoteClosed = t.remoteClosed
  | 0, _, _, _ => ⟨rfl, rfl⟩
  | n + 1, t, tot, buf => by
    rw [picoTcpReadLoop]
    split
    · exact ⟨rfl, rfl⟩
    · simp only
      split
      · exact ⟨rfl, rfl⟩
      · split
        · exact ⟨rfl, rfl⟩
        · exact picoTcpReadLoop_frame len n _ _ _

/-- A segment is refused, or it carries bytes and they fit the queue. -/
theorem picoEnqueueSegment_size (tq : PicoTcpQueue) (f : TcpInputSegment) :
    (picoEnqueueSegment tq f).1 ≤ 0 ∧ (picoEnqueueSegment tq f).2 = tq ∨
      0 < f.payloadLen ∧ tq.size + f.payloadLen ≤ tq.maxSize ∧
        (picoEnqueueSegment tq f).2.size = tq.size + f.payloadLen ∧
        (picoEnqueueSegment tq f).2.maxSize = tq.maxSize := by
  rw [picoEnqueueSegment]
  split
  · exact .inl ⟨by simp, rfl⟩
  · next hzero =>
    rw [doEnqueueSegment]
    split
    · exact .inl ⟨le_rfl, rfl⟩
    · next hfit =>
      split
      · exact .inl ⟨le_rfl, rfl⟩
      · exact .inr ⟨by omega, by omega, rfl, rfl⟩

/-- An accepted segment is the only thing that makes the queue grow. -/
theorem tcpDataInExpected_size (t : PicoSocketTcp) (f : TcpInputSegment) :
    tcpDataInExpected t f = (t, false) ∨
      (tcpDataInExpected t f).2 = true ∧ 0 < f.payloadLen ∧
        t.tcpqIn.size + f.payloadLen ≤ t.tcpqIn.maxSize ∧
        (tcpDataInExpected t f).1.tcpqIn.size = t.tcpqIn.size + f.payloadLen ∧
        (tcpDataInExpected t f).1.tcpqIn.maxSize = t.tcpqIn.maxSize := by
  rw [tcpDataInExpected]
  split
  · simp only
    split
    · exact .inl rfl
    · next hret =>
      rcases picoEnqueueSegment_size t.tcpqIn f with ⟨hrefused, -⟩ | haccepted
      · exact absurd hrefused hret
      · exact .inr ⟨rfl, haccepted⟩
  · exact .inl rfl

/-- A segment is accepted only if it carries bytes and fits the queue. -/
theorem tcpDataInExpected_accepted {t : PicoSocketTcp} {f : TcpInputSegment}
    (h : (tcpDataInExpected t f).2 = true) :
    0 < f.payloadLen ∧ t.tcpqIn.size + f.payloadLen ≤ t.tcpqIn.maxSize := by
  rcases tcpDataInExpected_size t f with hsame | ⟨-, hpos, hfit, -⟩
  · rw [hsame] at h
    cases h
  · exact ⟨hpos, hfit⟩

/-- Discarding makes a queue no longer. -/
theorem picoDiscardSegment_size (tq : PicoTcpQueue) (f : TcpInputSegment) :
    (picoDiscardSegment tq f).size ≤ tq.size ∧
      (picoDiscardSegment tq f).maxSize = tq.maxSize := by
  rw [picoDiscardSegment]
  split
  · exact ⟨Nat.sub_le .., rfl⟩
  · exact ⟨le_rfl, rfl⟩

theorem releaseUntilLoop_size (seq : BitVec 32) (n : ℕ) (q : PicoTcpQueue)
    (head : Option TcpInputSegment) :
    (releaseUntilLoop seq n q head).size ≤ q.size ∧
      (releaseUntilLoop seq n q head).maxSize = q.maxSize := by
  induction n generalizing q head with
  | zero => exact ⟨le_rfl, rfl⟩
  | succ n ih =>
    cases head with
    | none => exact ⟨le_rfl, rfl⟩
    | some cur =>
      rw [releaseUntilLoop]
      split
      · obtain ⟨hsize, hmax⟩ := ih (picoDiscardSegment q cur) (nextSegment q cur)
        obtain ⟨hsize', hmax'⟩ := picoDiscardSegment_size q cur
        exact ⟨hsize.trans hsize', hmax.trans hmax'⟩
      · exact ⟨le_rfl, rfl⟩

theorem tcpReadCheckSegmentDone_size (tq : PicoTcpQueue) (f : TcpInputSegment) (n : ℕ) :
    (tcpReadCheckSegmentDone tq f n).size ≤ tq.size ∧
      (tcpReadCheckSegmentDone tq f n).maxSize = tq.maxSize := by
  rw [tcpReadCheckSegmentDone]
  split
  · exact picoDiscardSegment_size tq f
  · exact ⟨le_rfl, rfl⟩

/-- LOOP: a read makes the queue no longer, in order or not. -/
theorem picoTcpReadLoop_size (len n : ℕ) (t : PicoSocketTcp) (tot : ℕ) (buf : List UInt8) :
    (picoTcpReadLoop len n t tot buf).1.tcpqIn.size ≤ t.tcpqIn.size ∧
      (picoTcpReadLoop len n t tot buf).1.tcpqIn.maxSize = t.tcpqIn.maxSize := by
  induction n generalizing t tot buf with
  | zero => exact ⟨le_rfl, rfl⟩
  | succ n ih =>
    rw [picoTcpReadLoop]
    split
    · exact ⟨le_rfl, rfl⟩
    · obtain ⟨hsize, hmax⟩ := releaseUntilLoop_size t.rcvProcessed t.tcpqIn.pool.length t.tcpqIn
        (firstSegment t.tcpqIn)
      rw [← releaseUntil] at hsize hmax
      simp only
      split
      · exact ⟨hsize, hmax⟩
      · next f _ =>
        split
        · exact ⟨hsize, hmax⟩
        · obtain ⟨hturn, hmax'⟩ := tcpReadCheckSegmentDone_size
            (releaseUntil t.tcpqIn t.rcvProcessed) f
            (tcpReadInFrameLen f (picoSeqCompare t.rcvProcessed f.seq) tot len)
          refine ⟨(ih _ _ _).1.trans (hturn.trans hsize), ?_⟩
          exact (ih _ _ _).2.trans (hmax'.trans hmax)

/-- READ: the queue is no longer than before. -/
theorem picoTcpRead_size (t : PicoSocketTcp) (len : ℕ) :
    (picoTcpRead t len).1.tcpqIn.size ≤ t.tcpqIn.size ∧
      (picoTcpRead t len).1.tcpqIn.maxSize = t.tcpqIn.maxSize :=
  picoTcpReadLoop_size len _ t 0 []

/-- ARRIVAL: the expected segment is appended to the unread bytes when it fits the queue. -/
theorem tcpDataInExpected_inOrder {t : PicoSocketTcp} {f : TcpInputSegment}
    (h : InOrder t t.rcvNxt) (hseq : f.seq = t.rcvNxt) (hpos : 0 < f.payloadLen)
    (hfit : t.tcpqIn.size + f.payloadLen ≤ t.tcpqIn.maxSize) :
    ∃ u, tcpDataInExpected t f = (u, true) ∧ InOrder u u.rcvNxt ∧
      unread u = unread t ++ f.payload ∧ u.remoteClosed = t.remoteClosed ∧ u.rcvNxt = f.next := by
  have hlt := h.total_lt
  have hsize := h.size_eq
  have hframes := h.frames_eq
  have hmax := h.max_lt
  have hchain : ∃ a, Chain a t.tcpqIn.pool f.seq := ⟨_, hseq ▸ h.chain⟩
  obtain ⟨a, ha⟩ := hchain
  have hself : picoSeqCompare f.seq t.rcvNxt = 0 := by
    rw [hseq, picoSeqCompare_eq, BitVec.sub_self]; rfl
  have htotal : total (t.tcpqIn.pool ++ [f]) = t.tcpqIn.size + f.payloadLen := by
    rw [hsize, total, total, List.map_append, List.sum_append]
    simp
  -- nothing lies beyond the segment just received, so `rcv_nxt` does not scroll further
  have hscroll : scrollRcvNxt
      { t.tcpqIn with
        pool := t.tcpqIn.pool ++ [f]
        size := t.tcpqIn.size + f.payloadLen
        frames := t.tcpqIn.frames + 1 } (t.tcpqIn.pool ++ [f]).length f.next = f.next := by
    rw [List.length_append, List.length_singleton, scrollRcvNxt,
      (ha.append hpos).peek_end (by simp only; omega)]
  have hdata : tcpDataInExpected t f = ({ t with
      tcpqIn := { t.tcpqIn with
        pool := t.tcpqIn.pool ++ [f]
        size := t.tcpqIn.size + f.payloadLen
        frames := t.tcpqIn.frames + 1 }
      rcvNxt := f.next }, true) := by
    rw [tcpDataInExpected, if_pos hself, picoEnqueueSegment_end ha hlt hpos hfit]
    simp only
    rw [if_neg (by omega), hscroll]
  refine ⟨_, hdata, ?_⟩
  cases hp : t.tcpqIn.pool with
  | nil =>
    have hc := h.chain
    rw [hp] at hc
    have hstart : f.seq = t.rcvProcessed := hseq.trans hc.symm
    rw [hp] at htotal
    obtain ⟨hin, -, hun⟩ := inOrder_of_chain (e := f.next) (t := { t with
        tcpqIn := { t.tcpqIn with
          pool := [] ++ [f]
          size := t.tcpqIn.size + f.payloadLen
          frames := t.tcpqIn.frames + 1 }
        rcvNxt := f.next }) ⟨hstart, hpos, rfl⟩ htotal.symm (by simp [hframes, hp]) hfit hmax
    refine ⟨hin, ?_, rfl, rfl⟩
    rw [hun, unread, hp]
    simp
  | cons g gs =>
    obtain ⟨hc, ho⟩ := h.chain_cons hp
    rw [← hseq] at hc
    rw [hp] at htotal
    have hle : readOff t ≤ ((g :: gs).flatMap (·.payload)).length := by
      rw [← total_eq_length, total_cons]
      omega
    rw [readOff, hp] at ho
    refine ⟨⟨hc.append hpos, ho, htotal.symm, ?_, hfit, hmax⟩, ?_, rfl, rfl⟩
    · simp only [List.length_append, List.length_singleton, hframes, hp]
    · have hun : unread t = ((g :: gs).flatMap (·.payload)).drop (readOff t) := by rw [unread, hp]
      have hoff : readOff t = (t.rcvProcessed - g.seq).toNat := by rw [readOff, hp]; rfl
      rw [hun, ← List.drop_append_of_le_length hle, hoff, unread, List.flatMap_append]
      simp only [readOff, List.cons_append, List.head?_cons, Option.elim_some, List.flatMap_cons,
        List.flatMap_nil, List.append_nil]

end FdPicotcp.TcpQueue
