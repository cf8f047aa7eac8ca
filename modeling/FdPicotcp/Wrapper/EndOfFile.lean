import Mathlib.Data.Fintype.Basic
import FdPicotcp.Wrapper.Wakeups

/-! False end-of-file: when may a `read()` return 0 although the peer has not closed?

    A token can outlive the bytes it announced, so a read may pass its `sem_wait` and find nothing.
    It finds something in every schedule if the reads in flight are backed by the queue: for each of
    them the others together ask for fewer bytes than are queued. Taking the token only when this
    holds keeps it, whatever the order of the reads, and then every read returns bytes. -/

namespace FdPicotcp.EndOfFile
open Transition CInt TcpQueue Socket Elem Descriptor Announce Wakeups

variable {n : ℕ}

/-- The bytes a read in flight asks for: past its `sem_wait`, before its `pico_socket_read`. One
    without a buffer gets none. -/
def asked : ThreadPc → ℕ
  | .drainTest buf len | .drainRead buf len | .drainCount buf len _ | .sockRead buf len =>
    if buf = .null then 0 else toUint32 len
  | _ => 0

/-- A read with a buffer is in flight. -/
def InFlight : ThreadPc → Prop
  | .drainTest buf _ | .drainRead buf _ | .drainCount buf _ _ | .sockRead buf _ => buf ≠ .null
  | _ => False

instance : DecidablePred InFlight
  | .drainTest .. | .drainRead .. | .drainCount .. | .sockRead .. =>
    inferInstanceAs (Decidable (_ ≠ _))
  | .away | .readWait .. | .readUnlock _ | .readPost .. | .readDone _ | .acceptWait | .sockAccept
  | .acceptDone _ => isFalse id

/-- What the other reads in flight ask for. -/
def others (thread : Fin n → ThreadPc) (q : Fin n) : ℕ :=
  ∑ r ∈ Finset.univ.erase q, asked (thread r)

/-- Whichever read in flight comes last still finds bytes. -/
def Backed (d : Desc n) : Prop :=
  ∀ q, InFlight (d.thread q) → others d.thread q < (unread d.socket.tcp).length

/-- While the peer is open: the length of a read with a buffer is not 0 as a `uint32_t`, and a
    `sem_wait` is passed only if the reads in flight, this one included, are backed. -/
def TokenBacked (d : Desc n) : Act n → Prop
  | .read _ buf len => peerClosed d.socket = false → buf = .null ∨ toUint32 (toInt32 len) ≠ 0
  | .thread p =>
    match d.thread p with
    | .readWait buf len => peerClosed d.socket = false → Backed (d.goto p (.drainTest buf len))
    | _ => True
  | _ => True

instance (d : Desc n) : Decidable (Backed d) := inferInstanceAs (Decidable (∀ _, _ → _))

instance (d : Desc n) : DecidablePred (TokenBacked d)
  | .read _ _ _ => inferInstanceAs (Decidable (_ → _))
  | .thread p => by
    dsimp only [TokenBacked]
    exact match d.thread p with
      | .readWait _ _ => inferInstance
      | .away | .drainTest _ _ | .drainRead _ _ | .drainCount _ _ _ | .sockRead _ _ | .readUnlock _
      | .readPost _ _ | .readDone _ | .acceptWait | .sockAccept | .acceptDone _ => inferInstance
  | .event _ | .stack | .accept _ | .close _ => isTrue trivial

/-- As on any stream, and a FIN may arrive. -/
def ReadingAct : Act n → Prop
  | .event (.fin _) | .event (.segmentFin _ _) => True
  | a => StreamAct a

instance : DecidablePred (ReadingAct (n := n))
  | .event (.fin _) | .event (.segmentFin ..) | .event (.segment ..) | .event (.synAck _) | .stack
  | .read .. | .thread _ => isTrue trivial
  | .event (.datagram _) | .event (.syn _) | .event (.firstAck _) | .event (.del _) | .accept _
  | .close _ => isFalse id

/-- A read that has no buffer or asks for bytes, or a result that is not a false end-of-file. -/
def Honest : ThreadPc → Prop
  | .readWait buf len | .drainTest buf len | .drainRead buf len | .drainCount buf len _
  | .sockRead buf len => buf = .null ∨ 0 < toUint32 len
  | .readUnlock ret | .readPost ret _ | .readDone ret => 1 ≤ ret ∨ ret = -1
  | _ => True

/-- What the run keeps: while the peer is open the reads are backed and honest. -/
structure Kept (d : Desc n) : Prop where
  stream : Stream d
  backed : peerClosed d.socket = false → Backed d
  honest : peerClosed d.socket = false → ∀ p, Honest (d.thread p)

theorem others_update_self (thread : Fin n → ThreadPc) (p : Fin n) (pc : ThreadPc) :
    others (Function.update thread p pc) p = others thread p :=
  Finset.sum_congr rfl fun r hr => by rw [Function.update_of_ne (Finset.ne_of_mem_erase hr)]

/-- Moving one thread changes what the others of another thread ask for by its share. -/
theorem others_update_of_ne {p q : Fin n} (h : p ≠ q) (thread : Fin n → ThreadPc) (pc : ThreadPc) :
    others (Function.update thread p pc) q + asked (thread p) = others thread q + asked pc :=
  sum_update asked thread (Finset.mem_erase.mpr ⟨h, Finset.mem_univ p⟩) pc

/-- A step that neither changes a thread's share nor takes bytes. -/
theorem backed_of_same {d d' : Desc n} {p : Fin n} {k : ThreadPc} (h : Backed d)
    (ht : d'.thread = Function.update d.thread p k) (hask : asked k = asked (d.thread p))
    (hfly : InFlight k → InFlight (d.thread p))
    (hun : (unread d.socket.tcp).length ≤ (unread d'.socket.tcp).length) : Backed d' := by
  intro q hq
  rw [ht] at hq ⊢
  by_cases hqp : q = p
  · subst hqp
    rw [Function.update_self] at hq
    rw [others_update_self]
    exact (h q (hfly hq)).trans_le hun
  · rw [Function.update_of_ne hqp] at hq
    have hsum := others_update_of_ne (Ne.symm hqp) d.thread k
    have hlt := h q hq
    omega

theorem honest_update {d d' : Desc n} {p : Fin n} {k : ThreadPc}
    (h : ∀ q, Honest (d.thread q)) (ht : d'.thread = Function.update d.thread p k)
    (hk : Honest k) : ∀ q, Honest (d'.thread q) := by
  intro q
  rw [ht]
  by_cases hqp : q = p
  · rw [hqp, Function.update_self]
    exact hk
  · rw [Function.update_of_ne hqp]
    exact h q

/-- A `pico_socket_read` takes its own share at most, so the others stay backed. -/
theorem backed_read {d d' : Desc n} {p : Fin n} {k : ThreadPc} {m : ℕ} (h : Backed d)
    (ht : d'.thread = Function.update d.thread p k) (hask : asked k = 0) (hfly : ¬ InFlight k)
    (hm : asked (d.thread p) = m)
    (hun : (unread d'.socket.tcp).length = (unread d.socket.tcp).length - m) : Backed d' := by
  intro q hq
  rw [ht] at hq ⊢
  by_cases hqp : q = p
  · rw [hqp, Function.update_self] at hq
    exact absurd hq hfly
  · rw [Function.update_of_ne hqp] at hq
    have hsum := others_update_of_ne (Ne.symm hqp) d.thread k
    have hlt := h q hq
    omega

/-- STEP, `pico_socket_read`: without a buffer it returns -1 and takes nothing, with one it finds
    bytes. -/
theorem kept_sockRead {d : Desc n} {p : Fin n} {buf : Buffer} {len : ℤ} (h : Kept d)
    (hopen : peerClosed d.socket = false) (hpc : d.thread p = .sockRead buf len) :
    let d' : Desc n := { d.goto p (if len = (picoSocketRead d.socket buf len).2.1
        then .readUnlock (picoSocketRead d.socket buf len).2.1
        else .readDone (picoSocketRead d.socket buf len).2.1) with
      socket := (picoSocketRead d.socket buf len).1 }
    Backed d' ∧ ∀ q, Honest (d'.thread q) := by
  have hback := h.backed hopen
  have hon := h.honest hopen
  have hp := hon p
  rw [hpc] at hp
  have htaken : (unread (picoSocketRead d.socket buf len).1.tcp).length =
      (unread d.socket.tcp).length - asked (.sockRead buf len) := by
    cases buf with
    | null => simp [asked]
    | valid =>
      rw [(picoSocketRead_open len h.stream.wf.sound h.stream.inTree h.stream.bound h.stream.proto
        hopen).2, List.length_drop]
      rfl
  have hret : 1 ≤ (picoSocketRead d.socket buf len).2.1 ∨
      (picoSocketRead d.socket buf len).2.1 = -1 := by
    cases buf with
    | null => exact .inr (by rw [picoSocketRead_null])
    | valid =>
      have hbytes : 0 < (unread d.socket.tcp).length :=
        (Nat.zero_le _).trans_lt (hback p (by rw [hpc]; exact nofun))
      have hpos : 0 < toUint32 len := hp.resolve_left nofun
      rw [(picoSocketRead_open len h.stream.wf.sound h.stream.inTree h.stream.bound h.stream.proto
        hopen).1]
      omega
  dsimp only
  refine ⟨?_, honest_update (k := if len = _ then .readUnlock _ else .readDone _) hon rfl ?_⟩
  · split
    · exact backed_read (k := .readUnlock _) hback rfl rfl id (by rw [hpc]) htaken
    · exact backed_read (k := .readDone _) hback rfl rfl id (by rw [hpc]) htaken
  · split <;> exact hret

theorem kept_threadStep {d d' : Desc n} {p : Fin n} (h : Kept d)
    (hc : TokenBacked d (.thread p)) (hs : threadStep d p = some d')
    (hopen : peerClosed d.socket = false) : Backed d' ∧ ∀ q, Honest (d'.thread q) := by
  have hback := h.backed hopen
  have hon := h.honest hopen
  have hp := hon p
  obtain ⟨pc, hpc, hm⟩ := threadStep_move hs
  rw [TokenBacked] at hc
  rw [hpc] at hp
  simp only [hpc] at hc
  cases hm with
  | readWait buf len => exact ⟨hc hopen, honest_update (k := .drainTest buf len) hon rfl hp⟩
  | drainTest buf len =>
    split
    · exact ⟨backed_of_same (k := .drainRead buf len) hback rfl (by rw [hpc]; rfl)
        (by rw [hpc]; exact id) le_rfl, honest_update (k := .drainRead buf len) hon rfl hp⟩
    · exact ⟨backed_of_same (k := .sockRead buf len) hback rfl (by rw [hpc]; rfl)
        (by rw [hpc]; exact id) le_rfl, honest_update (k := .sockRead buf len) hon rfl hp⟩
  | drainRead buf len =>
    exact ⟨backed_of_same (k := .drainCount buf len _) hback rfl (by rw [hpc]; rfl)
      (by rw [hpc]; exact id) le_rfl, honest_update (k := .drainCount buf len _) hon rfl hp⟩
  | drainCount buf len k =>
    exact ⟨backed_of_same (k := .drainTest buf len) hback rfl (by rw [hpc]; rfl)
      (by rw [hpc]; exact id) le_rfl, honest_update (k := .drainTest buf len) hon rfl hp⟩
  | sockRead buf len => exact kept_sockRead h hopen hpc
  | readUnlock ret =>
    exact ⟨backed_of_same (k := .readPost ret _) hback rfl (by rw [hpc]; rfl) (fun hf => hf.elim)
      le_rfl, honest_update (k := .readPost ret _) hon rfl hp⟩
  | readPost ret v =>
    exact ⟨backed_of_same (k := .readDone ret) hback rfl (by rw [hpc]; rfl) (fun hf => hf.elim)
      le_rfl, honest_update (k := .readDone ret) hon rfl hp⟩
  | acceptWait =>
    exact ⟨backed_of_same (k := .sockAccept) hback rfl (by rw [hpc]; rfl) (fun hf => hf.elim) le_rfl,
      honest_update (k := .sockAccept) hon rfl trivial⟩
  | sockAccept =>
    exact ⟨backed_of_same (k := .acceptDone _) hback rfl (by rw [hpc]; rfl) (fun hf => hf.elim)
      (by simp only [picoSocketAccept_tcp, le_refl]),
      honest_update (k := .acceptDone _) hon rfl trivial⟩
  | readDone | acceptDone =>
    exact ⟨backed_of_same (k := .away) hback rfl (by rw [hpc]; rfl) (fun hf => hf.elim) le_rfl,
      honest_update (k := .away) hon rfl trivial⟩

/-- What an event does to a stream socket: bytes are added, or the peer closes. -/
def Reads (s t : PicoSocket) : Prop :=
  t.inTree = s.inTree ∧ t.bound = s.bound ∧ (peerClosed t = false →
    peerClosed s = false ∧ (unread s.tcp).length ≤ (unread t.tcp).length)

theorem reading_segment {s t : PicoSocket} {f : TcpInputSegment} {again : ℕ}
    {evs : List (BitVec 16)} (h : Sound s) (he : event s (.segment f again) = some (t, evs)) :
    Reads s t := by
  simp only [event, Option.map_eq_some_iff, Prod.mk.injEq] at he
  obtain ⟨u, hu, rfl, -⟩ := he
  obtain ⟨-, hshape, hun, -⟩ := tcpDataIn_spec h hu
  refine ⟨hshape.inTree, hshape.bound, fun ho => ⟨hshape.peerClosed ▸ ho, ?_⟩⟩
  rw [hun, List.length_append]
  exact Nat.le_add_right ..

theorem reading_event {s t : PicoSocket} {e : Event} {evs : List (BitVec 16)} (h : Sound s)
    (ha : ReadingAct (n := n) (.event e)) (he : event s e = some (t, evs)) : Reads s t := by
  cases e with
  | segment f again => exact reading_segment h he
  | segmentFin f again => exact reading_segment h (event_segmentFin h f again ▸ he)
  | synAck seq =>
    simp only [event, Option.map_eq_some_iff, Prod.mk.injEq] at he
    obtain ⟨u, hu, rfl, -⟩ := he
    have hsyn := tcpSynack_spec h hu
    refine ⟨hsyn.inTree, hsyn.bound, fun ho => ⟨hsyn.peerClosed ▸ ho, ?_⟩⟩
    rw [hsyn.unread.1, hsyn.unread.2]
  | fin seq =>
    simp only [event, Option.map_eq_some_iff, Prod.mk.injEq, Prod.exists] at he
    obtain ⟨u, close, hu, rfl, -⟩ := he
    have hfin := tcpClosewait_spec h hu
    exact ⟨hfin.inTree, hfin.bound, fun _ => ⟨hfin.opened, by rw [hfin.unread]⟩⟩
  | datagram p | syn remote | firstAck remote | del ev => exact absurd ha id

/-- STEP: a backed step keeps the reads backed and honest. -/
theorem kept_step {d d' : Desc n} {a : Act n} (h : Kept d) (ha : ReadingAct a)
    (hc : TokenBacked d a) (hs : step d a = some d') : Kept d' := by
  have hclose : ∀ b, a ≠ .close b := by
    intro b hb
    rw [hb] at ha
    exact ha
  have hwf := wf_step h.stream.wf hs
  have htable := (inTable_step h.stream.wf hclose hs).trans h.stream.inTable
  cases step_move hs with
  | event e s evs hidle he =>
    obtain ⟨ht, hb, hopen⟩ := reading_event h.stream.wf.sound ha he
    have hproto := (event_spec h.stream.wf.sound he).proto
    refine ⟨⟨hwf, htable, hproto.trans h.stream.proto, ht.trans h.stream.inTree,
      hb.trans h.stream.bound⟩, ?_, fun ho => h.honest (hopen ho).1⟩
    intro ho q hq
    exact (h.backed (hopen ho).1 q hq).trans_le (hopen ho).2
  | stack e he => exact ⟨stream_step h.stream (a := .stack) trivial hs, h.backed, h.honest⟩
  | read p buf len hin haway =>
    refine ⟨stream_step h.stream (a := .read p buf len) trivial hs, ?_, ?_⟩
    · intro ho
      exact backed_of_same (k := .readWait _ _) (h.backed ho) rfl (by rw [haway]; rfl)
        (fun hf => hf.elim) le_rfl
    · intro ho
      exact honest_update (k := .readWait _ _) (h.honest ho) rfl
        ((hc ho).imp_right Nat.pos_of_ne_zero)
  | thread p d' hthread =>
    have hkind := (threadStep_kept h.stream.wf hthread).2.2.2
    refine ⟨stream_step h.stream (a := .thread p) trivial hs, ?_, ?_⟩
    · intro ho
      exact (kept_threadStep h hc hthread (hkind.peerClosed ▸ ho)).1
    · intro ho
      exact (kept_threadStep h hc hthread (hkind.peerClosed ▸ ho)).2
  | accept p | close b => exact absurd ha id

/-- NO FALSE END-OF-FILE: in a run of backed steps a read that returns while the peer is open gives
    at least one byte or -1. -/
theorem read_returns_bytes {s : PicoSocket} (hs : Sound s) (hp : s.proto = .tcp) (ht : s.inTree)
    (hb : s.bound) {as : List (Act n)}
    (hm : Meets step (fun d a => ReadingAct a ∧ TokenBacked d a) (register s n) as) {d : Desc n}
    (hr : run step (register s n) as = some d) (hopen : peerClosed d.socket = false) {p : Fin n}
    {ret : ℤ} (hret : d.thread p = .readDone ret) : 1 ≤ ret ∨ ret = -1 := by
  have hstart : Kept (register s n) :=
    ⟨⟨wf_register hs, rfl, hp, ht, hb⟩, fun _ q hq => hq.elim, fun _ _ => trivial⟩
  have hend : Kept d := run_keeps (fun _ _ _ hi ha hs => kept_step hi ha.1 ha.2 hs) hstart hm hr
  have hon := hend.honest hopen p
  rwa [hret] at hon

/-- Three bytes arrive and are announced; a first `read()` takes all of them and posts again, and a
    second one follows. -/
def drainTwice (first : ℕ) : List (Act 1) :=
  .event (.segment (.ofBytes 0 [1, 2, 3]) 0) :: List.replicate 5 .stack ++
    .read 0 .valid first :: List.replicate 9 (.thread 0) ++
    .read 0 .valid 3 :: List.replicate 3 (.thread 0)

theorem drainTwice_runs :
    (run step (register (connectedSocket 0) 1) (drainTwice 3)).isSome := by decide +kernel

/-- The second read returns 0 although the peer has not closed. -/
theorem false_end_of_file : ¬ ∀ (as : List (Act 1)) (d : Desc 1) (p : Fin 1) (ret : ℤ),
    (∀ a ∈ as, ReadingAct a) → (∀ q buf len, .read q buf len ∈ as → 0 < len) →
    run step (register (connectedSocket 0) 1) as = some d → peerClosed d.socket = false →
    d.thread p = .readDone ret → 1 ≤ ret ∨ ret = -1 := by
  intro h
  have hlen : ∀ q buf len, Act.read q buf len ∈ drainTwice 3 → 0 < len := by
    intro q buf len hmem
    simp [drainTwice] at hmem
    omega
  have hret := h (drainTwice 3) _ 0 0 (by decide) hlen (Option.some_get drainTwice_runs).symm
    (by decide +kernel) (by decide +kernel)
  omega

theorem drainTwice_runs_apart :
    (run step (register (connectedSocket 0) 1) (drainTwice 2)).isSome := by decide +kernel

/-- After a first read of two bytes the second one finds the third. -/
theorem read_returns_bytes_drainTwice : ∃ ret,
    (Option.get _ drainTwice_runs_apart).thread 0 = .readDone ret ∧ (1 ≤ ret ∨ ret = -1) :=
  ⟨1, by decide +kernel, read_returns_bytes (sound_connected 0) rfl rfl rfl (by decide +kernel)
    (Option.some_get drainTwice_runs_apart).symm (by decide +kernel) (p := 0) (by decide +kernel)⟩

end FdPicotcp.EndOfFile
