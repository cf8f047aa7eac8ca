import FdPicotcp.Lib.CInt

/-! The input queue of a picoTCP datagram socket (`include/pico_queue.h`, `modules/pico_udp.c`).

    One read takes at most one datagram: `pico_udp_recv` copies from the head of the queue and
    dequeues it only when the caller's buffer takes all that is left of it. So a read leaves
    something behind (`udpLeaves`) unless it finishes the only datagram, and it fills its buffer
    (`udpFills`) unless the datagram is shorter. -/

namespace FdPicotcp.UdpQueue
open CInt

/-- The part of `struct pico_frame` a datagram socket uses: `transport` holds the
    `transport_len - 8` bytes after the UDP header, `payload` the `payload_len` bytes from the
    `payload` pointer. -/
structure PicoFrame where
  bufferLen : ℕ
  transport : List UInt8
  payload : List UInt8
  transport_lt : transport.length < 2 ^ 16
  payload_lt : payload.length < 2 ^ 16
  deriving Repr

instance : DecidableEq PicoFrame := fun p q =>
  decidable_of_iff (p.bufferLen = q.bufferLen ∧ p.transport = q.transport ∧ p.payload = q.payload) (by
    cases p
    cases q
    simp)

/-- `struct pico_queue`; the frames from `head` to `tail` are the list `queue`. -/
structure PicoQueue where
  queue : List PicoFrame
  frames : ℕ
  size : ℕ
  maxFrames : ℕ
  maxSize : ℕ
  overhead : ℕ
  deriving DecidableEq, Repr

/-- The return value is the new size, or -1 when the frame is refused. -/
def picoEnqueue (q : PicoQueue) (p : PicoFrame) : ℤ × PicoQueue :=
  if q.maxFrames ≠ 0 ∧ q.maxFrames ≤ q.frames then (-1, q)
  else if q.maxSize ≠ 0 ∧ q.maxSize < toUint32 (p.bufferLen + q.size) then (-1, q)
  else
    let size := if q.queue = [] then 0 else q.size
    let frames := if q.queue = [] then 0 else q.frames
    let size := toUint32 (size + p.bufferLen + q.overhead)
    (toInt32 size, { q with queue := q.queue ++ [p], size := size, frames := frames + 1 })

def picoDequeue (q : PicoQueue) : Option PicoFrame × PicoQueue :=
  match q.queue with
  | [] => (none, q)
  | p :: ps =>
    if q.frames < 1 then (none, q)
    else (some p, { q with
      queue := ps
      frames := q.frames - 1
      size := toUint32 (q.size - (p.bufferLen - q.overhead)) })

def picoQueuePeek (q : PicoQueue) : Option PicoFrame :=
  if q.frames < 1 then none else q.queue.head?

/-- The payload of a frame that was never read from is everything after the UDP header. -/
def PicoFrame.opened (f : PicoFrame) : PicoFrame :=
  if f.payload = [] then { f with payload := f.transport, payload_lt := f.transport_lt } else f

/-- Move the payload pointer over `len` bytes. -/
def PicoFrame.consumed (f : PicoFrame) (len : ℕ) : PicoFrame :=
  { f with
    payload := f.payload.drop len
    payload_lt := lt_of_le_of_lt (f.payload.length_drop.trans_le (Nat.sub_le ..)) f.payload_lt }

/-- The number of bytes received, with the bytes. -/
def picoUdpRecv (q : PicoQueue) (len : ℕ) : PicoQueue × ℕ × List UInt8 :=
  match picoQueuePeek q with
  | none => (q, 0, [])
  | some f =>
    let f := f.opened
    if len < f.payload.length then
      ({ q with queue := f.consumed len :: q.queue.tail }, len, f.payload.take len)
    else ((picoDequeue q).2, f.payload.length, f.payload)

/-- `frames` counts the queue. -/
def Counted (q : PicoQueue) : Prop := q.frames = q.queue.length

/-- What is left of the datagram at the head of the queue. -/
def headBytes (q : PicoQueue) : List UInt8 := q.queue.head?.elim [] (·.opened.payload)

/-- A read of `len` bytes leaves a datagram, or the rest of one, in the queue. -/
def udpLeaves (q : PicoQueue) (len : ℕ) : Prop :=
  q.queue ≠ [] ∧ (len < (headBytes q).length ∨ 2 ≤ q.queue.length)

/-- A read of `len` bytes gets `len` bytes. -/
def udpFills (q : PicoQueue) (len : ℕ) : Prop := len ≤ (headBytes q).length

instance (q : PicoQueue) (len : ℕ) : Decidable (udpLeaves q len) :=
  inferInstanceAs (Decidable (_ ∧ _))

instance (q : PicoQueue) (len : ℕ) : Decidable (udpFills q len) :=
  inferInstanceAs (Decidable (_ ≤ _))

theorem picoEnqueue_counted {q : PicoQueue} (h : Counted q) (p : PicoFrame) :
    Counted (picoEnqueue q p).2 := by
  unfold Counted at *
  rw [picoEnqueue]
  split
  · exact h
  · split
    · exact h
    · simp only [List.length_append, List.length_singleton, Nat.add_right_cancel_iff]
      split
      · next hnil => rw [hnil]; rfl
      · exact h

/-- An accepted frame goes to the tail. -/
theorem picoEnqueue_queue {q : PicoQueue} {p : PicoFrame} (h : 0 < (picoEnqueue q p).1) :
    (picoEnqueue q p).2.queue = q.queue ++ [p] := by
  rw [picoEnqueue] at h ⊢
  split at h
  · simp at h
  · split at h
    · simp at h
    · next hframes hsize => rw [if_neg hframes, if_neg hsize]

theorem picoQueuePeek_counted {q : PicoQueue} (h : Counted q) : picoQueuePeek q = q.queue.head? := by
  rw [picoQueuePeek, h]
  cases q.queue with
  | nil => rfl
  | cons p ps => rw [if_neg (by rw [List.length_cons]; omega)]

theorem picoDequeue_cons {q : PicoQueue} {p : PicoFrame} {ps : List PicoFrame} (h : Counted q)
    (hq : q.queue = p :: ps) : picoDequeue q = (some p, { q with
      queue := ps
      frames := ps.length
      size := toUint32 (q.size - (p.bufferLen - q.overhead)) }) := by
  unfold Counted at h
  rw [hq, List.length_cons] at h
  rw [picoDequeue, hq]
  simp only
  rw [if_neg (by omega), h, Nat.add_sub_cancel]

/-- RECEIVE: the bytes of the head datagram, as many as fit, and whether anything stays queued. -/
theorem picoUdpRecv_spec {q : PicoQueue} (h : Counted q) (len : ℕ) :
    Counted (picoUdpRecv q len).1 ∧
      ((picoUdpRecv q len).1.queue ≠ [] ↔ udpLeaves q len) ∧
      (picoUdpRecv q len).2.1 = min len (headBytes q).length ∧
      (picoUdpRecv q len).2.2 = (headBytes q).take len := by
  rw [picoUdpRecv, picoQueuePeek_counted h, headBytes, udpLeaves, headBytes]
  unfold Counted at h
  cases hq : q.queue with
  | nil =>
    rw [hq] at h
    simp [Counted, h, hq]
  | cons f fs =>
    rw [hq] at h
    simp only [List.head?_cons, Option.elim_some]
    split
    · next hlt =>
      refine ⟨h, ?_, by simp only; omega, rfl⟩
      simp [hlt]
    · next hge =>
      rw [picoDequeue_cons (by rw [Counted, hq]; exact h) hq]
      have hall : f.opened.payload.length ≤ len := by omega
      refine ⟨rfl, ?_, (min_eq_right hall).symm, (List.take_of_length_le hall).symm⟩
      simp only [ne_eq, reduceCtorEq, not_false_eq_true, hge, false_or, true_and, List.length_cons]
      rw [← List.length_eq_zero_iff]
      omega

/-! How many datagrams can wait? `size` is only an upper bound of what the frames hold:
    `pico_dequeue` takes `overhead` off what it subtracts, where `pico_enqueue` has added it. -/

/-- Bytes in the buffers of the queued frames. -/
def held (ps : List PicoFrame) : ℕ := (ps.map (·.bufferLen)).sum

/-- The bytes held are counted, and `size` drifts from them by less than the counter can hold. -/
structure Bounded (q : PicoQueue) : Prop where
  counted : Counted q
  full : ∀ p ∈ q.queue, 0 < p.bufferLen
  held_le : held q.queue ≤ q.size
  size_le : q.size + q.queue.length * q.overhead ≤ (q.maxSize + 1) * (q.overhead + 1)
  length_le : q.queue.length ≤ q.maxSize
  max_pos : 0 < q.maxSize
  max_lt : (q.maxSize + 1) * (q.overhead + 1) < 2 ^ 31

theorem length_le_held {ps : List PicoFrame} (h : ∀ p ∈ ps, 0 < p.bufferLen) :
    ps.length ≤ held ps := by
  induction ps with
  | nil => exact Nat.zero_le _
  | cons p ps ih =>
    have hp := h p (List.mem_cons_self ..)
    have hps := ih fun x hx => h x (List.mem_cons_of_mem _ hx)
    rw [held] at hps ⊢
    rw [List.length_cons, List.map_cons, List.sum_cons]
    omega

/-- An empty queue is bounded, whatever `size` has drifted to. -/
theorem bounded_nil {q : PicoQueue} (hq : q.queue = []) (hframes : q.frames = 0)
    (hsize : q.size ≤ (q.maxSize + 1) * (q.overhead + 1)) (hpos : 0 < q.maxSize)
    (hlt : (q.maxSize + 1) * (q.overhead + 1) < 2 ^ 31) : Bounded q := by
  refine ⟨?_, ?_, ?_, ?_, ?_, hpos, hlt⟩
  · rw [Counted, hframes, hq]
    rfl
  · rw [hq]
    rintro p ⟨⟩
  · rw [hq]
    exact Nat.zero_le _
  · rw [hq, List.length_nil, Nat.zero_mul]
    exact hsize
  · rw [hq]
    exact Nat.zero_le _

/-- ENQUEUE: an accepted frame is one of at most `max_size`. -/
theorem Bounded.enqueue {q : PicoQueue} {p : PicoFrame} (h : Bounded q) (hpos : 0 < p.bufferLen)
    (hlt : p.bufferLen < 2 ^ 31) (hret : 0 < (picoEnqueue q p).1) :
    Bounded (picoEnqueue q p).2 := by
  have hqueue := picoEnqueue_queue hret
  have hcounted := picoEnqueue_counted h.counted p
  obtain ⟨-, hfull, hheld, hsize, hlen, hmax, hbound⟩ := h
  have hmany := length_le_held hfull
  have hprod : (q.maxSize + 1) * (q.overhead + 1) =
      q.maxSize * q.overhead + q.maxSize + q.overhead + 1 := by ring
  -- the size that the frame is added to is at least what the queue holds
  obtain ⟨base, hbase⟩ : ∃ base, base = if q.queue = [] then 0 else q.size := ⟨_, rfl⟩
  have hle : held q.queue ≤ base ∧ base ≤ q.size := by
    rw [hbase]
    split
    · next hnil => exact ⟨by rw [hnil]; exact le_rfl, Nat.zero_le _⟩
    · exact ⟨hheld, le_rfl⟩
  rw [picoEnqueue] at hret hqueue hcounted ⊢
  split at hret
  · cases hret
  · split at hret
    · cases hret
    · next hframes hroom =>
      rw [if_neg hframes, if_neg hroom] at hqueue hcounted ⊢
      simp only [← hbase] at hqueue hcounted hret ⊢
      have hfit : p.bufferLen + q.size ≤ q.maxSize := by
        rw [not_and, not_lt, toUint32] at hroom
        have := hroom hmax.ne'
        omega
      have hnew : toUint32 (base + p.bufferLen + q.overhead) = base + p.bufferLen + q.overhead := by
        rw [toUint32]
        omega
      have hheld' : held (q.queue ++ [p]) = held q.queue + p.bufferLen := by simp [held]
      have hlen' : (q.queue ++ [p]).length = q.queue.length + 1 := List.length_append
      have hmul : (q.queue.length + 1) * q.overhead ≤ q.maxSize * q.overhead :=
        Nat.mul_le_mul_right _ (by omega)
      refine ⟨hcounted, ?_, ?_, ?_, ?_, hmax, hbound⟩
      · simp only [List.mem_append, List.mem_singleton]
        rintro x (hx | rfl)
        · exact hfull x hx
        · exact hpos
      · simp only [hheld', hnew]
        omega
      · simp only [hlen', hnew]
        omega
      · simp only [hlen']
        omega

theorem opened_bufferLen (f : PicoFrame) : f.opened.bufferLen = f.bufferLen := by
  rw [PicoFrame.opened]
  split <;> rfl

theorem held_cons (p : PicoFrame) (ps : List PicoFrame) : held (p :: ps) = p.bufferLen + held ps := by
  rw [held, List.map_cons, List.sum_cons, held]

/-- RECEIVE: a read adds no datagram. -/
theorem Bounded.recv {q : PicoQueue} (h : Bounded q) (len : ℕ) :
    Bounded (picoUdpRecv q len).1 ∧ (picoUdpRecv q len).1.queue.length ≤ q.queue.length ∧
      (picoUdpRecv q len).1.maxSize = q.maxSize := by
  have hcounted := (picoUdpRecv_spec h.counted len).1
  obtain ⟨hcount, hfull, hheld, hsize, hlen, hmax, hbound⟩ := h
  rw [picoUdpRecv, picoQueuePeek_counted hcount] at hcounted ⊢
  cases hq : q.queue with
  | nil =>
    simp only [List.head?_nil, hq]
    exact ⟨⟨hcount, hfull, hheld, hsize, hlen, hmax, hbound⟩, le_rfl, trivial⟩
  | cons f fs =>
    rw [hq] at hcounted hfull hheld hsize hlen
    rw [held_cons] at hheld
    rw [List.length_cons] at hsize hlen
    have hrest : ∀ x ∈ fs, 0 < x.bufferLen := fun x hx => hfull x (List.mem_cons_of_mem _ hx)
    have hf := hfull f (List.mem_cons_self ..)
    simp only [List.head?_cons, List.tail_cons] at hcounted ⊢
    split
    · next hlt =>
      -- the frame stays, with less of it to read
      have hsame : (f.opened.consumed len).bufferLen = f.bufferLen := opened_bufferLen f
      rw [if_pos hlt] at hcounted
      refine ⟨⟨hcounted, ?_, ?_, ?_, ?_, hmax, hbound⟩, le_rfl, rfl⟩
      · simp only [List.mem_cons]
        rintro x (rfl | hx)
        · rw [hsame]
          exact hf
        · exact hrest x hx
      · rw [held_cons, hsame]
        exact hheld
      · rw [List.length_cons]
        exact hsize
      · exact hlen
    · next hge =>
      have hmul : (fs.length + 1) * q.overhead = fs.length * q.overhead + q.overhead := by ring
      have hnew : toUint32 (q.size - (f.bufferLen - q.overhead)) =
          q.size - f.bufferLen + q.overhead := by
        rw [toUint32]
        omega
      rw [if_neg hge, picoDequeue_cons hcount hq] at hcounted
      rw [picoDequeue_cons hcount hq]
      refine ⟨⟨hcounted, hrest, ?_, ?_, ?_, hmax, hbound⟩, ?_, rfl⟩
      · simp only [hnew]
        omega
      · simp only [hnew]
        omega
      · simp only
        omega
      · rw [List.length_cons]
        exact Nat.le_succ _

end FdPicotcp.UdpQueue
