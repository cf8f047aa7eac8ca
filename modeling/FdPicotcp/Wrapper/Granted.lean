import Mathlib.Data.List.Nodup
import FdPicotcp.Wrapper.Descriptor

/-! Does an `accept()` that gets past its semaphore find a connection?

    A listener's connections live on while they wait: segments, FINs and resets change or delete them.
    A token is posted when a connection becomes ESTABLISHED, and `pico_socket_accept` looks for that
    very state. The invariant compares what has been posted or is being posted (`tokens`) with the
    connections that can be found (`ready`). -/

namespace FdPicotcp.Granted
open Transition CInt Socket TcpQueue Elem Descriptor

variable {n : ℕ}

/-- A descriptor with the sockets of its connections by their remote endpoints. `announced` are the
    connections that `EV_CONN` was raised for, `returned` those that an `accept()` got, `reset` those
    that were deleted before. -/
structure World (n : ℕ) where
  desc : Desc n
  conn : ℕ → PicoSocket
  announced : List ℕ
  returned : List ℕ
  reset : List ℕ

/-- What happens to the connections that wait, and who accepts them. -/
inductive Act (n : ℕ) where
  | syn (remote : ℕ)
  /-- the ACK that completes a handshake with a peer that starts at `seq` -/
  | firstAck (remote : ℕ) (seq : BitVec 32)
  /-- a segment, a FIN, a reset or a timeout of a connection that waits -/
  | child (c : Child) (e : Event)
  | stack
  | accept (p : Fin n)
  | thread (p : Fin n)
  deriving DecidableEq

/-- The listener is now `s`. -/
def World.setSocket (w : World n) (s : PicoSocket) : World n :=
  { w with desc := { w.desc with socket := s } }

/-- `pico_socket_del` of a connection that has a parent. -/
def dropChild (s : PicoSocket) (c : Child) : PicoSocket :=
  { s with
    children := s.children.erase c
    numberOfPendingConn := toUint16 (s.numberOfPendingConn - 1) }

/-- The connection is in another state. -/
def setChild (s : PicoSocket) (c : Child) (st : TcpState) : PicoSocket :=
  { s with children := s.children.map fun d => if d = c then { d with state := st } else d }

/-- What happens to a connection. No entry has its socket, so that the callbacks find nothing; half
    open it can only be deleted. -/
def childStep (w : World n) (c : Child) (e : Event) : Option (World n) :=
  if c.state = .synRecv then
    match e with
    | .del _ => some (w.setSocket (dropChild w.desc.socket c))
    | _ => none
  else (event (w.conn c.remote) e).map fun (s, _) =>
    let w := { w with conn := Function.update w.conn c.remote s }
    if s.inTree then w.setSocket (setChild w.desc.socket c s.state)
    else { w.setSocket (dropChild w.desc.socket c) with
      reset := if c.state = .established then c.remote :: w.reset else w.reset }

/-- The connection that the next step of a thread takes. -/
def takes (d : Desc n) (p : Fin n) : List ℕ :=
  if d.thread p = .sockAccept then (picoSocketAccept d.socket).2.toList.map (·.remote) else []

/-- A step of the descriptor or of a connection. -/
def step (w : World n) : Act n → Option (World n)
  | .syn remote => (Descriptor.step w.desc (.event (.syn remote))).map fun d => { w with desc := d }
  | .firstAck remote seq =>
    (Descriptor.step w.desc (.event (.firstAck remote))).map fun d => { w with
      desc := d
      conn := Function.update w.conn remote (connectedSocket seq)
      announced := remote :: w.announced }
  | .child c e => if Idle w.desc.toEntry ∧ c ∈ w.desc.socket.children then childStep w c e else none
  | .stack => (Descriptor.step w.desc .stack).map fun d => { w with desc := d }
  | .accept p => (Descriptor.step w.desc (.accept p)).map fun d => { w with desc := d }
  | .thread p => (threadStep w.desc p).map fun d => { w with
      desc := d
      returned := takes w.desc p ++ w.returned }

/-- A descriptor that has just been opened, bound and made to listen. -/
def begin (backlog : ℤ) (n : ℕ) : World n where
  desc := register (picoSocketListen (picoSocketBind (picoSocketOpen .tcp)) backlog) n
  conn := fun _ => connectedSocket 0
  announced := []
  returned := []
  reset := []

/-- What a grant is to bring: no `accept()` past its semaphore has failed, and every connection that was
    announced can be found, or was returned, or was reset. -/
structure Succeeds (w : World n) : Prop where
  granted : ∀ p, w.desc.thread p ≠ .acceptDone none
  kept : ∀ r, w.announced.count r = w.returned.count r + w.reset.count r +
    w.desc.socket.children.count ⟨r, .established⟩

/-- An `accept()` blocks only when every connection that was announced was returned or reset. -/
def Served (w : World n) : Prop :=
  Idle w.desc.toEntry → (∀ p, w.desc.thread p ≠ .sockAccept) → w.desc.sem .accept = 0 →
    ∀ r, w.announced.count r = w.returned.count r + w.reset.count r

/-! Tokens and connections -/

/-- The stack thread is going to post. -/
def owed (e : Entry) : ℕ :=
  e.todo.countP (·.posts .accept) + if e.half = some (.accept, 0) then 1 else 0

/-- A thread that has been granted its `accept()`. -/
def holds : ThreadPc → ℕ
  | .sockAccept => 1
  | _ => 0

/-- Tokens that are there, on their way, or taken and not yet used. -/
def tokens (d : Desc n) : ℕ := d.sem .accept + owed d.toEntry + ∑ p, holds (d.thread p)

/-- The connections that `pico_socket_accept` finds. -/
def ready (s : PicoSocket) : ℕ := s.children.countP (·.state = .established)

/-- The FIN makes a connection leave ESTABLISHED: nothing is unread. -/
def finTaken (s : PicoSocket) : Event → Prop
  | .fin seq => picoSeqCompare seq s.tcp.rcvNxt = 0 ∧ picoSeqCompare seq s.tcp.rcvProcessed = 0
  | _ => False

/-- The stack gives a connection up. -/
def deletion : Event → Prop
  | .del _ => True
  | _ => False

instance (s : PicoSocket) : DecidablePred (finTaken s)
  | .fin _ => inferInstanceAs (Decidable (_ ∧ _))
  | .segment .. | .segmentFin .. | .datagram _ | .syn _ | .firstAck _ | .synAck _
  | .del _ => isFalse id

instance : DecidablePred deletion
  | .del _ => isTrue trivial
  | .segment .. | .fin _ | .segmentFin .. | .datagram _ | .syn _ | .firstAck _ | .synAck _ => isFalse id

/-- No FIN is taken on a connection that waits, and none is reset unless there are more of them than
    tokens. -/
def Spared (w : World n) : Act n → Prop
  | .child c e => c.state = .established →
    ¬ finTaken (w.conn c.remote) e ∧ (deletion e → tokens w.desc < ready w.desc.socket)
  | _ => True

instance (w : World n) (a : Act n) : Decidable (Spared w a) := by
  unfold Spared; split <;> infer_instance

/-- `unlock_sem` does nothing if it sees the semaphore positive: no token is lost that way. -/
def Unlost (w : World n) : Act n → Prop
  | .stack => w.desc.half = none → w.desc.todo.head? = some (.unlockSem .accept) →
    w.desc.sem .accept = 0
  | _ => True

instance (w : World n) (a : Act n) : Decidable (Unlost w a) := by
  unfold Unlost; split <;> infer_instance

/-- Threads do nothing on a listener but accept. -/
def Accepting : ThreadPc → Prop
  | .away | .acceptWait | .sockAccept => True
  | .acceptDone c => c ≠ none
  | _ => False

/-- A connection that `pico_socket_accept` finds. -/
structure Open (conn : ℕ → PicoSocket) (c : Child) : Prop where
  state : c.state = .established
  sound : Sound (conn c.remote)
  tcp : (conn c.remote).proto = .tcp
  established : (conn c.remote).state = .established

theorem Open.of_eq {conn conn' : ℕ → PicoSocket} {c : Child} (h : Open conn c)
    (heq : conn' c.remote = conn c.remote) : Open conn' c := by
  obtain ⟨hstate, hsound, hp, hest⟩ := h
  rw [← heq] at hsound hp hest
  exact ⟨hstate, hsound, hp, hest⟩

theorem open_update (conn : ℕ → PicoSocket) {c : Child} {t : PicoSocket}
    (hstate : c.state = .established) (hsound : Sound t) (hp : t.proto = .tcp)
    (hest : t.state = .established) : Open (Function.update conn c.remote t) c := by
  refine ⟨hstate, ?_, ?_, ?_⟩
  all_goals
    rw [Function.update_self]
    assumption

/-- Tokens `t` are covered by connections `r`; if no post was lost (`E`), the other way round too. -/
structure Covers (E : Prop) (inTable : Bool) (t r : ℕ) : Prop where
  le : t ≤ r
  ge : E → inTable ∧ r ≤ t

theorem Covers.shift {E : Prop} {inTable : Bool} {t r t' r' : ℕ} (h : Covers E inTable t r)
    (heq : t' + r = t + r') : Covers E inTable t' r' := by
  obtain ⟨hle, hge⟩ := h
  refine ⟨by omega, ?_⟩
  intro he
  obtain ⟨hin, hrt⟩ := hge he
  exact ⟨hin, by omega⟩

/-- What every step keeps. -/
structure Inv (E : Prop) (w : World n) : Prop where
  listening : w.desc.socket.bound ∧ w.desc.socket.proto = .tcp ∧ w.desc.socket.state = .listen
  covers : Covers E w.desc.inTable (tokens w.desc) (ready w.desc.socket)
  remotes : (w.desc.socket.children.map (·.remote)).Nodup
  conns : ∀ c ∈ w.desc.socket.children, c.state ≠ .synRecv → Open w.conn c
  accepting : ∀ p, Accepting (w.desc.thread p)
  kept : ∀ r, w.announced.count r = w.returned.count r + w.reset.count r +
    w.desc.socket.children.count ⟨r, .established⟩

variable {E : Prop}

theorem Inv.succeeds {w : World n} (h : Inv E w) : Succeeds w := by
  refine ⟨?_, h.kept⟩
  intro p hp
  have hacc := h.accepting p
  rw [hp] at hacc
  exact hacc rfl

theorem Inv.served {w : World n} (h : Inv E w) (he : E) : Served w := by
  rintro ⟨hhalf, htodo⟩ hnone hsem r
  have hready := (h.covers.ge he).2
  have htokens : tokens w.desc = 0 := by
    rw [tokens, hsem, owed, hhalf, htodo]
    simp only [List.countP_nil, reduceCtorEq, if_false, Nat.zero_add]
    refine Finset.sum_eq_zero ?_
    intro p _
    have hp := hnone p
    cases hpc : w.desc.thread p with
    | sockAccept => exact absurd hpc hp
    | _ => rfl
  have hno : w.desc.socket.children.count ⟨r, .established⟩ = 0 := by
    rw [htokens, ready, Nat.le_zero, List.countP_eq_zero] at hready
    rw [List.count_eq_zero]
    intro hmem
    exact hready _ hmem (by simp)
  rw [h.kept r, hno, Nat.add_zero]

theorem not_posts {c : Sem} {op : Op} (h : op = .writePipe ∨ op = .incCount) : ¬ op.posts c := by
  rcases h with rfl | rfl <;> exact id

/-- `handle_wakeup` unlocks `accept_sem` once if it is called with `EV_CONN` and finds the entry. -/
theorem countP_handleWakeup (found : Bool) (ev : BitVec 16) :
    (handleWakeup found ev).countP (·.posts .accept) =
      if found ∧ (Op.lookup ev).posts .accept then 1 else 0 := by
  have hread : ([.writePipe, .incCount, .unlockSem .read] : List Op).countP (·.posts .accept) = 0 := by
    decide
  have hconn : ([.unlockSem .accept] : List Op).countP (·.posts .accept) = 1 := by decide
  cases found with
  | false => simp [handleWakeup]
  | true =>
    rw [handleWakeup, if_pos rfl, List.countP_append]
    by_cases hev : ev &&& picoSockEvConn ≠ 0
    · have hposts : true = true ∧ (Op.lookup ev).posts .accept := ⟨rfl, hev⟩
      rw [if_pos hev, hconn, if_pos hposts]
      split
      · rw [hread]
      · rw [List.countP_nil]
    · have hposts : ¬ (true = true ∧ (Op.lookup ev).posts .accept) := fun h => hev h.2
      rw [if_neg hev, List.countP_nil, if_neg hposts]
      split
      · rw [hread]
      · rw [List.countP_nil]

/-- STEP, the stack thread: a post that is made is one that is owed no more, and none is forgotten
    unless it is lost. -/
theorem tokens_stackStep {e e' : Entry} (hs : stackStep e = some e') :
    e'.sem .accept + owed e' ≤ e.sem .accept + owed e ∧
      (e.inTable → (e.half = none → e.todo.head? = some (.unlockSem .accept) → e.sem .accept = 0) →
        e.sem .accept + owed e ≤ e'.sem .accept + owed e') := by
  cases stackStep_move hs with
  | post c v hhalf =>
    cases c with
    | accept =>
      simp only [owed, hhalf, postUnless_self, reduceCtorEq, if_false, Option.some.injEq,
        Prod.mk.injEq, true_and]
      by_cases hv : 0 < v
      · rw [if_pos hv, if_neg (by omega)]
        exact ⟨le_rfl, fun _ _ => le_rfl⟩
      · rw [if_neg hv, if_pos (by omega)]
        exact ⟨by omega, fun _ _ => by omega⟩
    | read =>
      have hother : Sem.accept ≠ Sem.read := by simp
      simp [owed, hhalf, postUnless_of_ne hother]
  | lookup ev ops hhalf htodo =>
    have hcount := countP_handleWakeup e.inTable ev
    simp only [owed, hhalf, htodo, List.countP_append, List.countP_cons, decide_eq_true_eq, hcount]
    refine ⟨?_, ?_⟩
    · split
      · next hp => rw [if_pos hp.2]; omega
      · omega
    · intro hin _
      simp only [hin, true_and]
      omega
  | unlockSem c ops hhalf htodo =>
    simp only [owed, hhalf, htodo, List.countP_cons, decide_eq_true_eq]
    cases c with
    | accept =>
      simp only [Op.posts, if_true, Option.some.injEq, Prod.mk.injEq, true_and, reduceCtorEq, if_false,
        Nat.add_zero]
      refine ⟨by split <;> omega, ?_⟩
      intro _ hlost
      rw [if_pos (hlost trivial rfl)]
    | read => simp [Op.posts]
  | writePipe ops hhalf htodo hroom =>
    simp only [owed, hhalf, htodo]
    rw [List.countP_cons_of_neg (by simpa using not_posts (.inl rfl))]
    exact ⟨le_rfl, fun _ _ => le_rfl⟩
  | incCount ops hhalf htodo =>
    simp only [owed, hhalf, htodo]
    rw [List.countP_cons_of_neg (by simpa using not_posts (.inr rfl))]
    exact ⟨le_rfl, fun _ _ => le_rfl⟩

/-- Setting one of several distinct places in a list. -/
theorem map_ite_perm {α : Type*} [DecidableEq α] {l : List α} {c : α} (hl : l.Nodup) (hc : c ∈ l)
    (d : α) : (l.map fun x => if x = c then d else x).Perm (d :: l.erase c) := by
  have hperm := (List.perm_cons_erase hc).map fun x => if x = c then d else x
  have hrest : (l.erase c).map (fun x => if x = c then d else x) = l.erase c := by
    conv_rhs => rw [← List.map_id (l.erase c)]
    refine List.map_congr_left ?_
    intro x hx
    have hne : x ≠ c := by
      rintro rfl
      exact hl.not_mem_erase hx
    rw [if_neg hne]
    rfl
  rw [List.map_cons, if_pos rfl, hrest] at hperm
  exact hperm

/-- What a search finds is what `eraseP` takes out. -/
theorem find?_perm {α : Type*} {p : α → Bool} {l : List α} {c : α} (h : l.find? p = some c) :
    l.Perm (c :: l.eraseP p) := by
  obtain ⟨hpc, as, bs, rfl, has⟩ := List.find?_eq_some_iff_append.mp h
  have has : ∀ a ∈ as, ¬ p a = true := fun a ha => by simpa using has a ha
  rw [List.eraseP_append_right _ has, List.eraseP_cons_of_pos hpc]
  exact List.perm_middle

/-! What each step keeps -/

/-- A thread that moves changes the sum by its own share. -/
theorem sum_holds (d : Desc n) (p : Fin n) (k : ThreadPc) :
    ∑ q, holds (Function.update d.thread p k q) + holds (d.thread p) =
      ∑ q, holds (d.thread q) + holds k := sum_update holds d.thread (Finset.mem_univ p) k

theorem accepting_update {thread : Fin n → ThreadPc} (h : ∀ p, Accepting (thread p)) {p : Fin n}
    {k : ThreadPc} (hk : Accepting k) : ∀ q, Accepting (Function.update thread p k q) := by
  intro q
  by_cases hq : q = p
  · rw [hq, Function.update_self]
    exact hk
  · rw [Function.update_of_ne hq]
    exact h q

theorem Inv.stack {w : World n} {e : Entry} (h : Inv E w) (hlost : E → Unlost w .stack)
    (hs : stackStep w.desc.toEntry = some e) :
    Inv E { w with desc := { w.desc with toEntry := e } } := by
  obtain ⟨hle, hge⟩ := tokens_stackStep hs
  obtain ⟨hcov, hbal⟩ := h.covers
  have hin := stackStep_inTable hs
  refine ⟨h.listening, ⟨?_, ?_⟩, h.remotes, h.conns, h.accepting, h.kept⟩
  · rw [tokens] at hcov ⊢
    simp only
    omega
  · intro he
    obtain ⟨htable, hrt⟩ := hbal he
    have hge := hge htable (hlost he)
    refine ⟨hin.trans htable, ?_⟩
    rw [tokens] at hrt ⊢
    simp only
    omega

/-- A thread that moves between two points at which it holds as much. -/
theorem Inv.goto {w : World n} {p : Fin n} {k : ThreadPc} (h : Inv E w)
    (hholds : holds k = holds (w.desc.thread p)) (hk : Accepting k) :
    Inv E { w with desc := w.desc.goto p k } := by
  have hsum := sum_holds w.desc p k
  refine ⟨h.listening, h.covers.shift ?_, h.remotes, h.conns, accepting_update h.accepting hk, h.kept⟩
  rw [tokens, tokens]
  simp only [Desc.goto]
  omega

/-- A listener that has established connections hands out the first. -/
theorem picoSocketAccept_ready {s : PicoSocket}
    (hl : s.bound ∧ s.proto = .tcp ∧ s.state = .listen) (hr : 0 < ready s) :
    ∃ c, c.state = .established ∧ c ∈ s.children ∧
      s.children.Perm (c :: s.children.eraseP (·.state = .established)) ∧
      picoSocketAccept s = ({ s with
        children := s.children.eraseP (·.state = .established)
        numberOfPendingConn := toUint16 (s.numberOfPendingConn - 1) }, some c) := by
  obtain ⟨hb, hp, hs⟩ := hl
  obtain ⟨a, ha, hest⟩ := List.countP_pos_iff.mp hr
  cases hfind : s.children.find? (·.state = .established) with
  | none => exact absurd hest (List.find?_eq_none.mp hfind a ha)
  | some c =>
    have hc := List.find?_some hfind
    refine ⟨c, by simpa using hc, List.mem_of_find?_eq_some hfind, find?_perm hfind, ?_⟩
    rw [picoSocketAccept, if_neg (by simp [hb, hp, hs]), hfind]

/-- STEP, a granted `accept()`: it gets a connection. -/
theorem Inv.sockAccept {w : World n} {p : Fin n} (h : Inv E w) (hpc : w.desc.thread p = .sockAccept) :
    Inv E { w with
      desc := { w.desc.goto p (.acceptDone (picoSocketAccept w.desc.socket).2) with
        socket := (picoSocketAccept w.desc.socket).1 }
      returned := takes w.desc p ++ w.returned } := by
  have hcov := h.covers.le
  have hheld := sum_holds w.desc p .away
  rw [hpc, show holds .sockAccept = 1 from rfl, show holds .away = 0 from rfl] at hheld
  rw [tokens] at hcov
  obtain ⟨c, hest, hmem, hperm, hacc⟩ := picoSocketAccept_ready h.listening (by omega)
  have hcount : ready w.desc.socket =
      (w.desc.socket.children.eraseP (·.state = .established)).countP (·.state = .established) + 1 := by
    rw [ready, hperm.countP_eq, List.countP_cons_of_pos (by simpa using hest)]
  have hsum := sum_holds w.desc p (.acceptDone (some c))
  rw [hpc, show holds .sockAccept = 1 from rfl, show holds (.acceptDone (some c)) = 0 from rfl] at hsum
  have htakes : takes w.desc p = [c.remote] := by
    rw [takes, if_pos hpc, hacc]
    rfl
  rw [hacc, htakes]
  refine ⟨h.listening, h.covers.shift ?_, ?_, ?_,
    accepting_update h.accepting (k := .acceptDone (some c)) (by simp [Accepting]), ?_⟩
  · rw [tokens, tokens, hcount, ready]
    simp only [Desc.goto]
    omega
  · exact h.remotes.sublist (List.eraseP_sublist.map _)
  · exact fun d hd => h.conns d (List.mem_of_mem_eraseP hd)
  · intro r
    have hkept := h.kept r
    rw [hperm.count_eq, List.count_cons] at hkept
    simp only [List.singleton_append, List.count_cons]
    have hsame : (c == (⟨r, .established⟩ : Child)) = (c.remote == r) := by
      cases c
      simp only at hest
      subst hest
      simp
    rw [hsame] at hkept
    omega

/-- A step of the stack between two callbacks: what it owes afterwards is what it announces. -/
theorem tokens_event {d : Desc n} (hidle : Idle d.toEntry) (s : PicoSocket) (evs : List (BitVec 16)) :
    tokens { d with socket := s, todo := evs.map .lookup } =
      tokens d + (evs.map Op.lookup).countP (·.posts .accept) := by
  obtain ⟨hhalf, htodo⟩ := hidle
  simp only [tokens, owed, hhalf, htodo, List.countP_nil, reduceCtorEq, if_false]
  omega

theorem Inv.syn {w : World n} {remote : ℕ} {s : PicoSocket} {evs : List (BitVec 16)} (h : Inv E w)
    (hidle : Idle w.desc.toEntry) (he : event w.desc.socket (.syn remote) = some (s, evs)) :
    Inv E { w with desc := { w.desc with socket := s, todo := evs.map .lookup } } := by
  simp only [event, Option.map_eq_some_iff, Prod.mk.injEq] at he
  obtain ⟨u, hu, rfl, rfl⟩ := he
  rw [tcpSyn, Option.ite_none_right_eq_some, Option.some.injEq] at hu
  obtain ⟨⟨-, -, -, -, hfresh⟩, rfl⟩ := hu
  have hperm := List.perm_orderedInsert (fun c d : Child => c.remote ≤ d.remote) ⟨remote, .synRecv⟩
    w.desc.socket.children
  refine ⟨h.listening, h.covers.shift ?_, ?_, ?_, h.accepting, ?_⟩
  · rw [tokens_event hidle, ready, ready, hperm.countP_eq, List.countP_cons_of_neg (by simp)]
    rfl
  · refine ((hperm.map _).nodup_iff).mpr (List.nodup_cons.mpr ⟨?_, h.remotes⟩)
    intro hmem
    obtain ⟨c, hc, hcr⟩ := List.mem_map.mp hmem
    exact hfresh c hc hcr
  · intro c hc hest
    rcases List.mem_cons.mp (hperm.mem_iff.mp hc) with rfl | hc
    · exact absurd rfl hest
    · exact h.conns c hc hest
  · intro r
    rw [hperm.count_eq, List.count_cons_of_ne (by simp)]
    exact h.kept r

/-- STEP, a handshake completes: one connection more, and one token on its way. -/
theorem Inv.firstAck {w : World n} {remote : ℕ} (seq : BitVec 32) {s : PicoSocket}
    {evs : List (BitVec 16)} (h : Inv E w) (hidle : Idle w.desc.toEntry)
    (he : event w.desc.socket (.firstAck remote) = some (s, evs)) :
    Inv E { w with
      desc := { w.desc with socket := s, todo := evs.map .lookup }
      conn := Function.update w.conn remote (connectedSocket seq)
      announced := remote :: w.announced } := by
  simp only [event, Option.map_eq_some_iff, Prod.mk.injEq] at he
  obtain ⟨u, hu, rfl, rfl⟩ := he
  rw [tcpFirstAck, Option.ite_none_right_eq_some, Option.some.injEq] at hu
  obtain ⟨⟨-, -, -, hmem⟩, rfl⟩ := hu
  have hnodup : w.desc.socket.children.Nodup := h.remotes.of_map
  have hmap : (w.desc.socket.children.map fun c =>
      if c = ⟨remote, .synRecv⟩ then { c with state := .established } else c) =
      w.desc.socket.children.map fun c =>
        if c = ⟨remote, .synRecv⟩ then ⟨remote, .established⟩ else c := by
    refine List.map_congr_left ?_
    intro c _
    by_cases hc : c = ⟨remote, .synRecv⟩
    · rw [if_pos hc, if_pos hc, hc]
    · rw [if_neg hc, if_neg hc]
  have hperm := map_ite_perm hnodup hmem ⟨remote, .established⟩
  have hold := List.perm_cons_erase hmem
  refine ⟨h.listening, h.covers.shift ?_, ?_, ?_, h.accepting, ?_⟩
  · have hnew : ready { w.desc.socket with children := w.desc.socket.children.map fun c =>
        if c = ⟨remote, .synRecv⟩ then { c with state := .established } else c } =
        ready w.desc.socket + 1 := by
      rw [ready, ready, hmap, hperm.countP_eq, hold.countP_eq, List.countP_cons_of_pos (by simp),
        List.countP_cons_of_neg (by simp)]
    rw [tokens_event hidle, hnew]
    have hone : ([picoSockEvConn].map Op.lookup).countP (·.posts .accept) = 1 := by decide
    omega
  · rw [hmap, (hperm.map _).nodup_iff]
    exact ((hold.map (·.remote)).nodup_iff).mp h.remotes
  · intro c hc hest
    rw [hmap, hperm.mem_iff, List.mem_cons] at hc
    rcases hc with rfl | hc
    · exact open_update (c := ⟨remote, .established⟩) w.conn rfl (sound_connected seq) rfl rfl
    · have hne : c.remote ≠ remote := by
        have hno := ((hold.map (·.remote)).nodup_iff).mp h.remotes
        rw [List.map_cons, List.nodup_cons] at hno
        exact fun hr => hno.1 (List.mem_map.mpr ⟨c, hc, hr⟩)
      exact (h.conns c (List.mem_of_mem_erase hc) hest).of_eq (Function.update_of_ne hne ..)
  · intro r
    have hkept := h.kept r
    rw [hold.count_eq, List.count_cons_of_ne (by simp)] at hkept
    simp only [hmap]
    rw [hperm.count_eq, List.count_cons, List.count_cons, hkept]
    have hsame : ((⟨remote, .established⟩ : Child) == ⟨r, .established⟩) = (remote == r) := by
      by_cases hr : remote = r
      · simp [hr]
      · simp [hr]
    rw [hsame]
    omega

/-- What happens to an established connection unless it takes a FIN: it stays, or it is deleted. -/
theorem event_waiting {s t : PicoSocket} {e : Event} {evs : List (BitVec 16)} (h : Sound s)
    (hp : s.proto = .tcp) (hest : s.state = .established) (hfin : ¬ finTaken s e)
    (he : event s e = some (t, evs)) :
    t.inTree ∧ Sound t ∧ t.proto = .tcp ∧ t.state = .established ∨ ¬ t.inTree ∧ deletion e := by
  have hsound := (event_spec h he).sound
  have hproto := (event_spec h he).proto
  have hsegment : ∀ f again, event s (.segment f again) = some (t, evs) →
      t.inTree ∧ t.state = .established := by
    intro f again hseg
    simp only [event, Option.map_eq_some_iff, Prod.mk.injEq] at hseg
    obtain ⟨u, hu, rfl, -⟩ := hseg
    obtain ⟨-, hshape, -, -, -, hstate, -⟩ := tcpDataIn_spec h hu
    refine ⟨?_, hstate⟩
    rw [hshape.inTree]
    rw [tcpDataIn, Option.ite_none_right_eq_some] at hu
    exact hu.1.2.1
  cases e with
  | segment f again =>
    obtain ⟨htree, hstate⟩ := hsegment f again he
    exact .inl ⟨htree, hsound, hproto.trans hp, hstate⟩
  | segmentFin f again =>
    obtain ⟨htree, hstate⟩ := hsegment f again (event_segmentFin h f again ▸ he)
    exact .inl ⟨htree, hsound, hproto.trans hp, hstate⟩
  | fin seq =>
    -- the FIN of a connection with unread bytes only closes the peer's side
    simp only [event, Option.map_eq_some_iff, Prod.mk.injEq, Prod.exists] at he
    obtain ⟨u, close, hu, rfl, -⟩ := he
    rw [tcpClosewait, Option.ite_none_right_eq_some, Option.some.injEq, tcpAttemptClosewait] at hu
    obtain ⟨⟨-, htree, -, -⟩, hu⟩ := hu
    refine .inl ⟨?_, hsound, hproto.trans hp, ?_⟩
    all_goals
      by_cases hnxt : picoSeqCompare seq s.tcp.rcvNxt = 0
      · have hproc : ¬ picoSeqCompare seq s.tcp.rcvProcessed = 0 := fun hz => hfin ⟨hnxt, hz⟩
        rw [if_pos hnxt] at hu
        simp only [hproc, if_false, Prod.mk.injEq] at hu
        obtain ⟨rfl, -⟩ := hu
        first | exact htree | exact hest
      · rw [if_neg hnxt, Prod.mk.injEq] at hu
        obtain ⟨rfl, -⟩ := hu
        first | exact htree | exact hest
  | datagram d => simp [event, hp] at he
  | syn remote =>
    simp only [event, Option.map_eq_some_iff, Prod.mk.injEq] at he
    obtain ⟨u, hu, -, -⟩ := he
    simp [tcpSyn, hest] at hu
  | firstAck remote =>
    simp only [event, Option.map_eq_some_iff, Prod.mk.injEq] at he
    obtain ⟨u, hu, -, -⟩ := he
    simp [tcpFirstAck, hest] at hu
  | synAck seq =>
    simp only [event, Option.map_eq_some_iff, Prod.mk.injEq] at he
    obtain ⟨u, hu, -, -⟩ := he
    simp [tcpSynack, hest] at hu
  | del ev =>
    simp only [event, Option.ite_none_right_eq_some, Option.some.injEq, Prod.mk.injEq] at he
    obtain ⟨-, rfl, -⟩ := he
    exact .inr ⟨by simp [picoSocketDel], trivial⟩

/-- A connection of a listener is deleted; `hout` says where it has gone. -/
theorem Inv.dropChild {w : World n} {c : Child} {conn : ℕ → PicoSocket} {reset : List ℕ} (h : Inv E w)
    (hc : c ∈ w.desc.socket.children)
    (hlt : c.state = .established → tokens w.desc < ready w.desc.socket)
    (hconn : ∀ r, r ≠ c.remote → conn r = w.conn r)
    (hreset : reset = if c.state = .established then c.remote :: w.reset else w.reset) :
    Inv E ({ w with conn := conn, reset := reset }.setSocket
      (Granted.dropChild w.desc.socket c)) := by
  have hold := List.perm_cons_erase hc
  have hcov := h.covers
  rw [ready, hold.countP_eq, List.countP_cons] at hcov hlt
  refine ⟨h.listening, ?_, ?_, ?_, h.accepting, ?_⟩
  · change Covers E w.desc.inTable (tokens w.desc) ((w.desc.socket.children.erase c).countP _)
    by_cases hest : c.state = .established
    · have hlt := hlt hest
      simp only [hest, decide_true, if_true] at hlt hcov
      refine ⟨by omega, ?_⟩
      intro he
      have hrt := (hcov.ge he).2
      omega
    · simpa [hest] using hcov
  · exact h.remotes.sublist (List.erase_sublist.map _)
  · intro d hd hest
    have hne : d.remote ≠ c.remote := by
      have hno := ((hold.map (·.remote)).nodup_iff).mp h.remotes
      rw [List.map_cons, List.nodup_cons] at hno
      exact fun hr => hno.1 (List.mem_map.mpr ⟨d, hd, hr⟩)
    exact (h.conns d (List.mem_of_mem_erase hd) hest).of_eq (hconn _ hne)
  · intro r
    have hkept := h.kept r
    rw [hold.count_eq, List.count_cons] at hkept
    change w.announced.count r = w.returned.count r + reset.count r +
      (w.desc.socket.children.erase c).count ⟨r, .established⟩
    rw [hkept, hreset]
    by_cases hest : c.state = .established
    · have hsame : (c == (⟨r, .established⟩ : Child)) = (c.remote == r) := by
        cases c
        simp only at hest
        subst hest
        simp
      rw [if_pos hest, List.count_cons, hsame]
      omega
    · have hother : (c == (⟨r, .established⟩ : Child)) = false := by
        rw [beq_eq_false_iff_ne]
        rintro rfl
        exact hest rfl
      rw [if_neg hest, hother]
      simp

/-- STEP, a segment, a FIN, a reset or a timeout of a connection that waits. -/
theorem Inv.child {w w' : World n} {c : Child} {e : Event} (h : Inv E w)
    (hspared : Spared w (.child c e)) (hc : c ∈ w.desc.socket.children)
    (hs : childStep w c e = some w') : Inv E w' := by
  by_cases hsyn : c.state = .synRecv
  · have hest : c.state ≠ .established := by simp [hsyn]
    cases e with
    | del ev =>
      simp only [childStep, hsyn, if_true, Option.some.injEq] at hs
      subst hs
      exact h.dropChild hc (fun he => absurd he hest) (fun _ _ => rfl) (if_neg hest).symm
    | _ => simp [childStep, hsyn] at hs
  · obtain ⟨hest, hsound, hp, hstate⟩ := h.conns c hc hsyn
    obtain ⟨hfin, hdel⟩ := hspared hest
    simp only [childStep, if_neg hsyn, Option.map_eq_some_iff] at hs
    obtain ⟨⟨t, evs⟩, he, rfl⟩ := hs
    have hframe : ∀ r, r ≠ c.remote → Function.update w.conn c.remote t r = w.conn r :=
      fun r hr => Function.update_of_ne hr _ _
    rcases event_waiting hsound hp hstate hfin he with ⟨htree, hsound', hp', hstate'⟩ | ⟨htree, hd⟩
    · -- the connection stays where and what it was
      simp only [htree, if_true]
      have hsame : setChild w.desc.socket c t.state = w.desc.socket := by
        rw [setChild, hstate']
        have hid : (w.desc.socket.children.map fun d =>
            if d = c then { d with state := TcpState.established } else d) =
            w.desc.socket.children := by
          conv_rhs => rw [← List.map_id w.desc.socket.children]
          refine List.map_congr_left ?_
          intro d _
          by_cases hdc : d = c
          · rw [if_pos hdc, hdc, ← hest]
            rfl
          · rw [if_neg hdc]
            rfl
        rw [hid]
      rw [hsame]
      refine ⟨h.listening, h.covers, h.remotes, ?_, h.accepting, h.kept⟩
      intro d hd hdsyn
      by_cases hr : d.remote = c.remote
      · have hdc : d = c := List.inj_on_of_nodup_map h.remotes hd hc hr
        subst hdc
        exact open_update w.conn hest hsound' hp' hstate'
      · exact (h.conns d hd hdsyn).of_eq (hframe _ hr)
    · simp only [htree]
      exact h.dropChild hc (fun _ => hdel hd) hframe rfl

/-- STEP, a thread in a call. -/
theorem Inv.thread {w : World n} {d : Desc n} {p : Fin n} (h : Inv E w)
    (hs : threadStep w.desc p = some d) :
    Inv E { w with desc := d, returned := takes w.desc p ++ w.returned } := by
  have hacc := h.accepting p
  obtain ⟨pc, hpc, hm⟩ := threadStep_move hs
  rw [hpc] at hacc
  cases hm with
  | sockAccept => exact h.sockAccept hpc
  | acceptWait hpos =>
    have hsum := sum_holds w.desc p .sockAccept
    rw [hpc, show holds .acceptWait = 0 from rfl, show holds .sockAccept = 1 from rfl] at hsum
    rw [takes, if_neg (by simp [hpc])]
    refine ⟨h.listening, h.covers.shift ?_, h.remotes, h.conns,
      accepting_update h.accepting (k := .sockAccept) trivial, h.kept⟩
    change Function.update w.desc.sem .accept (w.desc.sem .accept - 1) .accept + owed w.desc.toEntry +
      ∑ q, holds (Function.update w.desc.thread p .sockAccept q) + ready w.desc.socket =
      tokens w.desc + ready w.desc.socket
    rw [Function.update_self, tokens]
    omega
  | acceptDone c =>
    rw [takes, if_neg (by simp [hpc])]
    exact h.goto (by rw [hpc]; rfl) trivial
  | readWait buf len | drainTest buf len | drainRead buf len | drainCount buf len k | sockRead buf len
  | readUnlock ret | readPost ret v | readDone ret => exact hacc.elim

/-- STEP -/
theorem inv_step {w w' : World n} {a : Act n} (h : Inv E w) (hspared : Spared w a)
    (hlost : E → Unlost w a) (hs : step w a = some w') : Inv E w' := by
  cases a with
  | syn remote =>
    rw [step, Option.map_eq_some_iff] at hs
    obtain ⟨d, hd, rfl⟩ := hs
    obtain @⟨_, s, evs, hidle, he⟩ := step_move hd
    exact h.syn hidle he
  | firstAck remote seq =>
    rw [step, Option.map_eq_some_iff] at hs
    obtain ⟨d, hd, rfl⟩ := hs
    obtain @⟨_, s, evs, hidle, he⟩ := step_move hd
    exact h.firstAck seq hidle he
  | child c e =>
    rw [step, Option.ite_none_right_eq_some] at hs
    exact h.child hspared hs.1.2 hs.2
  | stack =>
    rw [step, Option.map_eq_some_iff] at hs
    obtain ⟨d, hd, rfl⟩ := hs
    cases step_move hd with
    | stack e he => exact h.stack hlost he
  | accept p =>
    rw [step, Option.map_eq_some_iff] at hs
    obtain ⟨d, hd, rfl⟩ := hs
    cases step_move hd with
    | accept _ hin haway => exact h.goto (by rw [haway]; rfl) trivial
  | thread p =>
    rw [step, Option.map_eq_some_iff] at hs
    obtain ⟨d, hd, rfl⟩ := hs
    exact h.thread hd

theorem inv_begin {backlog : ℤ} (hb : 1 ≤ backlog) : Inv E (begin backlog n) := by
  have hsocket : (begin backlog n).desc.socket = { picoSocketBind (picoSocketOpen .tcp) with
      state := .listen, maxBacklog := toUint16 backlog } := by
    have hlisten : ¬ (backlog < 1 ∨ ¬ (picoSocketBind (picoSocketOpen .tcp)).inTree ∨
        (picoSocketBind (picoSocketOpen .tcp)).proto = .udp ∨
        ¬ (picoSocketBind (picoSocketOpen .tcp)).bound) := by
      simp [picoSocketBind, picoSocketOpen]
      omega
    rw [begin, register, picoSocketListen, if_neg hlisten]
  have hchildren : (begin backlog n).desc.socket.children = [] := by
    rw [hsocket]
    rfl
  refine ⟨?_, ⟨?_, ?_⟩, ?_, ?_, fun _ => trivial, ?_⟩
  · rw [hsocket]
    exact ⟨rfl, rfl, rfl⟩
  · simp [begin, tokens, owed, holds, register, fdElemCreate]
  · intro _
    rw [ready, hchildren]
    exact ⟨rfl, Nat.zero_le _⟩
  · rw [hchildren]
    exact List.nodup_nil
  · rw [hchildren]
    simp
  · rw [hchildren]
    intro r
    rfl

/-! Runs -/

/-- RUN: while no connection that waits is lost to a FIN or a reset, no granted `accept()` fails; and
    if no token is lost either, `accept()` does not block while a connection waits. -/
theorem granted_succeeds {backlog : ℤ} (hb : 1 ≤ backlog) {as : List (Act n)} {w : World n}
    (hm : Meets step Spared (begin backlog n) as) (hr : run step (begin backlog n) as = some w) :
    Succeeds w ∧ (Meets step Unlost (begin backlog n) as → Served w) := by
  have hspared : Inv False w := by
    refine run_keeps ?_ (inv_begin hb) hm hr
    intro w a w' h hspared hs
    exact inv_step h hspared False.elim hs
  refine ⟨hspared.succeeds, ?_⟩
  intro hunlost
  have hboth : Inv True w := by
    refine run_keeps ?_ (inv_begin hb) (hm.and hunlost) hr
    rintro w a w' h ⟨hspared, hlost⟩ hs
    exact inv_step h hspared (fun _ => hlost) hs
  exact hboth.served trivial

/-- A connection comes, is announced, gets bytes and is accepted. -/
def handshake : List (Act 1) := [.syn 7, .firstAck 7 0, .stack, .stack, .stack]

theorem granted_succeeds_oneConnection :
    ∃ w, run step (begin 5 1) (handshake ++ [.child ⟨7, .established⟩ (.segment ⟨0, [1, 2], by decide⟩ 0),
        .accept 0, .thread 0, .thread 0]) = some w ∧
      Succeeds w ∧ Served w ∧ w.returned = [7] := by
  obtain ⟨w, hw, hret⟩ : ∃ w, run step (begin 5 1) (handshake ++
      [.child ⟨7, .established⟩ (.segment ⟨0, [1, 2], by decide⟩ 0), .accept 0, .thread 0, .thread 0]) = some w ∧
      w.returned = [7] := ⟨_, rfl, rfl⟩
  obtain ⟨hsucc, hserved⟩ := granted_succeeds (by decide) (by decide) hw
  exact ⟨w, hw, hsucc, hserved (by decide), hret⟩

/-- The peer closes before the connection is accepted: the granted `accept()` returns -1. -/
theorem granted_fails : ∃ w, run step (begin 5 1) (handshake ++
      [.child ⟨7, .established⟩ (.fin 0), .accept 0, .thread 0, .thread 0]) = some w ∧
    ¬ Succeeds w := by
  refine ⟨_, rfl, ?_⟩
  intro h
  exact h.granted 0 rfl

end FdPicotcp.Granted
