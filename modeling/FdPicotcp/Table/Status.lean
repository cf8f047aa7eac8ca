import FdPicotcp.Table.Calls

/-! Is `fd_err` the status of the last call?

    The calls run in one thread. Between any two actions of a call, and between calls, the stack
    thread may be in `handle_wakeup`, which sets `fd_err` when it finds no entry for its socket.

    The exits differ: some record their failure, some do not, and none that succeeds sets `FD_OK`.
    `status_iff` says in which runs `fd_err` is the status all the same. -/

namespace FdPicotcp.Status
open Transition Program FdTable AddressText
open Ownership (Binding)
open Family (Net)
open FrontEnds (afPicoInet sockStream)
open Socket (picoSockEvConn picoSockEvRd)

/-- The process: `call` is the call in progress, `owes` that `handle_wakeup` has found no entry and
    is to set `fd_err`. -/
structure Process extends Shared where
  call : Option Call
  owes : Bool

/-- Who moves. -/
inductive Act where
  | call (r : Request)
  /-- the call's next action, or its return -/
  | app
  /-- `handle_wakeup` for the socket at `a` -/
  | wakeup (ev : BitVec 16) (a : ℕ)
  /-- and its `fd_err = FD_SOCKET_NOT_FOUND` -/
  | notFound

/-- What `handle_wakeup` does to the entry it has found; the pipe is left out. -/
def wakeEntry (ev : BitVec 16) (l : FdElem ℕ) : FdElem ℕ :=
  let l := if ev &&& picoSockEvConn ≠ 0 then unlocked .accept l else l
  if ev &&& picoSockEvRd ≠ 0 then unlocked .read l else l

/-- `handle_wakeup`: an entry gets its tokens; without one there is still `fd_err` to set. -/
def handleWakeup (w : Process) (ev : BitVec 16) (a : ℕ) : Option Process :=
  match getFdElemFromSocket w.globals a with
  | .error _ => none
  | .ok none => some { w with owes := ev &&& picoSockEvConn ≠ 0 ∨ ev &&& picoSockEvRd ≠ 0 }
  | .ok (some (i, l)) =>
    (FdTable.setSlot w.globals i (some (wakeEntry ev l))).toOption.map fun globals =>
      { w with globals }

/-- A step of the process. -/
def Process.step (inner : Binding) (w : Process) : Act → Option Process
  | .call r => if w.call.isNone then some { w with call := some (r.call inner) } else none
  | .app =>
    match w.call with
    | none => none
    | some (.ret _) => some { w with call := none }
    | some p => (p.next handler w.toShared).map fun (g, p) => { w with toShared := g, call := some p }
  | .wakeup ev a => if w.owes then none else handleWakeup w ev a
  | .notFound =>
    if w.owes then some { w with globals := w.globals.fail .socketNotFound, owes := false } else none

/-! What is watched -/

/-- `own` is that `fd_err` was last set by the call in progress, or by the one that has returned,
    `late` that `handle_wakeup` has set it since, or since the call began, `recorded` that it has ever
    been set, `ret` what a call has returned in the last step. -/
structure World extends Process where
  own : Bool
  late : Bool
  recorded : Bool
  ret : Option ℤ

/-- The step sets `fd_err`, for the call or in `handle_wakeup`. -/
def writer (w : Process) : Act → Option Bool
  | .app =>
    match w.call with
    | some (.act (.setErr _) _) => some true
    | _ => none
  | .notFound => some false
  | .call _ | .wakeup .. => none

/-- What a call returns by this step. -/
def returns (w : Process) : Act → Option ℤ
  | .app =>
    match w.call with
    | some (.ret x) => x.value
    | _ => none
  | .call _ | .wakeup .. | .notFound => none

/-- The step, and what is recorded of it. -/
def World.next (w : World) (a : Act) (v : Process) : World where
  toProcess := v
  own := match a with
    | .call _ => false
    | _ => (writer w.toProcess a).getD w.own
  late := match a with
    | .call _ => false
    | _ => ((writer w.toProcess a).map (! ·)).getD w.late
  recorded := w.recorded || (writer w.toProcess a).isSome
  ret := returns w.toProcess a

/-- The world moves as the process does. -/
def step (inner : Binding) (w : World) (a : Act) : Option World :=
  (w.toProcess.step inner a).map (w.next a)

/-- Before the first call. -/
def begin : World := ⟨⟨⟨start, false⟩, none, false⟩, false, false, false, none⟩

/-- Right after a call: an error of its own after -1, `FD_OK` after anything else. -/
def IsStatus (w : World) : Prop :=
  ∀ v, w.ret = some v →
    (v = -1 → w.globals.fdErr ≠ .ok ∧ w.own = true) ∧ (v ≠ -1 → w.globals.fdErr = .ok)

/-- A call leaves by an exit that records its failure and `handle_wakeup` has not set `fd_err` since;
    or it succeeds, and `fd_err` has never been set. -/
def Exit.Settled (w : World) : Exit → Prop
  | .kernel => True
  | .opened _ => w.recorded = false
  | .recorded _ => w.late = false
  | .silent _ => False
  | .answer ret => ret ≠ -1 ∧ w.recorded = false

/-- The condition on a step: only a return has one. -/
def Settled (w : World) : Act → Prop
  | .app =>
    match w.call with
    | some (.ret x) => x.Settled w
    | _ => True
  | .call _ | .wakeup .. | .notFound => True

instance (w : World) : DecidablePred (Exit.Settled w)
  | .kernel => isTrue trivial
  | .opened _ | .recorded _ => inferInstanceAs (Decidable (_ = _))
  | .silent _ => isFalse id
  | .answer _ => inferInstanceAs (Decidable (_ ∧ _))

instance (w : World) : DecidablePred (Settled w)
  | .app =>
    match h : w.call with
    | some (.ret x) => decidable_of_iff (x.Settled w) (by simp only [Settled, h])
    | some (.act ..) | none => isTrue (by simp only [Settled, h])
  | .call _ | .wakeup .. | .notFound => isTrue trivial

/-! The exits of the calls -/

/-- `fd_err` is set at most once in a call, and to an error. -/
def monitor : Monitor Action Answer (Option FdErr) where
  allows e
    | .setErr e' => e = none ∧ e' ≠ .ok
    | _ => True
  next e
    | .setErr e' => some e'
    | _ => e
  may
    | .setSlot fd _, _ => 0 ≤ fd
    | _, _ => True

/-- The exit tells whether the call has set `fd_err`, and to what. -/
def Fits (e : Option FdErr) (x : Exit) : Prop :=
  match x with
  | .recorded e' => e = some e'
  | .opened fd => e = none ∧ 0 ≤ fd
  | .kernel | .silent _ | .answer _ => e = none

theorem watched_fail {e : FdErr} (h : e ≠ .ok) : Watched monitor Fits none (fail e) :=
  watched_perform (a := Action.setErr e) ⟨rfl, h⟩ fun _ _ => watched_pure rfl

theorem watched_stop {post : Option FdErr → Exit → Prop} {e : Option FdErr} :
    Watched monitor post e stop :=
  watched_act trivial fun r => r.elim

theorem watched_lookup {α : Type} {post : Option FdErr → α → Prop} {e : Option FdErr} {fd : ℤ}
    {f : Option (FdElem ℕ) → Op α} (hnone : Watched monitor post e (f none))
    (hsome : ∀ l, Watched monitor post e (f (some l))) : Watched monitor post e (lookup fd >>= f) := by
  refine watched_perform trivial ?_
  rintro (_ | l) -
  · exact hnone
  · exact hsome l

theorem insertElem_watched (l : FdElem ℕ) : Watched monitor Fits none (insertElem l) := by
  refine watched_lookup ?_ fun _ => watched_fail (by simp)
  exact watched_perform (a := Action.setSlot l.fd.1 (some l)) trivial fun _ h => watched_pure ⟨rfl, h⟩

theorem fdElemCreate_watched (alloc : Alloc) (fd : ℤ × ℤ) (s : ℕ) :
    Watched monitor Fits none (fdElemCreate alloc fd s) := by
  rw [fdElemCreate]
  split
  · exact watched_fail (by simp)
  split
  · exact watched_fail (by simp)
  split
  · exact watched_pure rfl
  refine watched_perform (a := Action.sizes) trivial ?_
  rintro ⟨size, maxFd⟩ -
  dsimp only
  split
  · split
    · exact watched_fail (by simp)
    refine watched_perform (a := Action.grow alloc.table) trivial ?_
    rintro grown -
    split
    · exact insertElem_watched _
    · exact watched_pure rfl
  · exact insertElem_watched _

/-- A failure is passed on. -/
theorem watched_ifOpened {newFd : Call} {rest : ℤ → Call} (h : Watched monitor Fits none newFd)
    (hrest : ∀ fd, 0 ≤ fd → Watched monitor Fits none (rest fd)) :
    Watched monitor Fits none (ifOpened newFd rest) := by
  refine watched_bind h fun e x hx => ?_
  cases x with
  | opened fd =>
    obtain ⟨rfl, h0⟩ := hx
    exact hrest fd h0
  | kernel | recorded | silent | answer => exact watched_pure hx

theorem init_watched (env : OpenEnv) : Watched monitor (fun e _ => e = none) none (init env) := by
  refine watched_perform (a := Action.init env.rlimCur) trivial fun _ _ => ?_
  split
  · split
    · omega
    · exact watched_pure rfl
  · exact watched_pure rfl

theorem openSocket_watched (net : Net) (env : OpenEnv) :
    Watched monitor Fits none (openSocket net env) := by
  rw [openSocket]
  split
  · exact watched_fail (by simp)
  · exact watched_fail (by simp)
  · refine watched_ifOpened (fdElemCreate_watched _ _ _) fun newFd h0 => ?_
    exact watched_perform (a := Action.setIsIpv6 newFd net.isIpv6) trivial
      fun _ _ => watched_pure ⟨rfl, h0⟩

theorem fdPicoSocketOpen_watched (net : Net) (env : OpenEnv) :
    Watched monitor Fits none (fdPicoSocketOpen net env) := by
  refine watched_perform (a := Action.launch) trivial ?_
  rintro launched -
  dsimp only
  split
  · refine watched_bind (init_watched env) ?_
    rintro e - rfl
    exact openSocket_watched net env
  · exact openSocket_watched net env

theorem fdPicoSocketBind_watched (fd : ℤ) (address : List Char) (env : BindEnv) :
    Watched monitor Fits none (fdPicoSocketBind fd address env) := by
  refine watched_lookup (watched_fail (by simp)) fun l => ?_
  dsimp only
  split
  · split
    · exact watched_fail (by simp)
    split
    · exact watched_fail (by simp)
    split
    · exact watched_fail (by simp)
    · exact watched_pure rfl
  split
  · split
    · exact watched_stop
    · exact watched_fail (by simp)
    · exact watched_stop
    · exact watched_fail (by simp)
    · split
      · exact watched_fail (by simp)
      split
      · exact watched_fail (by simp)
      · exact watched_pure rfl
  · exact watched_fail (by simp)

theorem fdPicoSocketConnect_watched (fd : ℤ) (address : List Char) (ret : ℤ) :
    Watched monitor Fits none (fdPicoSocketConnect fd address ret) := by
  refine watched_perform (a := Action.lookup fd) trivial ?_
  rintro l -
  refine watched_lookup (watched_fail (by simp)) fun _ => ?_
  cases l with
  | none => exact watched_stop
  | some l =>
    dsimp only
    split
    · split
      · exact watched_fail (by simp)
      · exact watched_pure rfl
    · split
      · exact watched_stop
      · exact watched_fail (by simp)
      · exact watched_pure rfl

theorem fdPicoSocketAccept_watched (fd : ℤ) (env : AcceptEnv) :
    Watched monitor Fits none (fdPicoSocketAccept fd env) := by
  refine watched_lookup (watched_fail (by simp)) fun l => ?_
  refine watched_perform (a := Action.waitonSem .accept fd) trivial fun _ _ => ?_
  split
  · exact watched_fail (by simp)
  split
  · exact watched_stop
  refine watched_ifOpened (fdElemCreate_watched _ _ _) fun newFd h0 => ?_
  dsimp only
  split
  · exact watched_perform (a := Action.setIsIpv6 newFd 1) trivial fun _ _ => watched_pure ⟨rfl, h0⟩
  · exact watched_pure ⟨rfl, h0⟩

theorem fdPicoSocketRead_watched (fd len readLen : ℤ) :
    Watched monitor Fits none (fdPicoSocketRead fd len readLen) := by
  refine watched_lookup (watched_fail (by simp)) fun l => ?_
  refine watched_perform (a := Action.waitonSem .read fd) trivial fun _ _ => ?_
  dsimp only
  split
  · exact watched_perform (a := Action.unlockSem .read fd) trivial fun _ _ => watched_pure rfl
  · exact watched_pure rfl

theorem fdPicoSocketClose_watched (inner : Binding) (fd ret : ℤ) :
    Watched monitor Fits none (fdPicoSocketClose inner fd ret) := by
  refine watched_lookup (watched_fail (by simp)) fun _ => ?_
  refine watched_lookup (watched_pure rfl) fun _ => ?_
  cases inner with
  | interposed => exact watched_stop
  | libc => exact watched_perform (a := Action.setSlot fd none) trivial fun _ _ => watched_pure rfl

/-- The front end's end of `accept()`. -/
theorem accept_watched (fd : ℤ) (env : AcceptEnv) : Watched monitor Fits none (accept fd env) := by
  refine watched_lookup (watched_pure rfl) fun _ => ?_
  refine watched_bind (fdPicoSocketAccept_watched fd env) fun e x hx => ?_
  refine watched_perform (a := Action.lookup (x.value.getD (-1))) trivial ?_
  rintro l -
  cases x with
  | opened newFd =>
    cases l with
    | none => exact watched_pure hx.1
    | some l => exact watched_pure hx
  | kernel | recorded | silent | answer => exact watched_pure hx

/-- CALLS: every exit of every call records its failure, or has not touched `fd_err`. -/
theorem watched_call (inner : Binding) (r : Request) : Watched monitor Fits none (r.call inner) := by
  cases r with
  | socket domain type env =>
    simp only [Request.call, Status.socket]
    split
    · split
      · exact fdPicoSocketOpen_watched _ env
      · exact watched_pure rfl
    split
    · split
      · exact fdPicoSocketOpen_watched _ env
      · exact watched_pure rfl
    · exact watched_pure rfl
  | bind fd addr addrlen stale env =>
    refine watched_lookup (watched_pure rfl) fun _ => ?_
    dsimp only
    split
    · exact watched_pure rfl
    · exact fdPicoSocketBind_watched fd _ env
  | listen fd ret =>
    refine watched_lookup (watched_pure rfl) fun _ => ?_
    exact watched_lookup (watched_fail (by simp)) fun _ => watched_pure rfl
  | connect fd addr addrlen stale ret =>
    refine watched_lookup (watched_pure rfl) fun _ => ?_
    dsimp only
    split
    · exact watched_pure rfl
    · exact fdPicoSocketConnect_watched fd _ ret
  | accept fd env => exact accept_watched fd env
  | read fd len readLen =>
    exact watched_lookup (watched_pure rfl) fun _ => fdPicoSocketRead_watched fd len readLen
  | write fd ret =>
    refine watched_lookup (watched_pure rfl) fun _ => ?_
    exact watched_lookup (watched_fail (by simp)) fun _ => watched_pure rfl
  | close fd ret =>
    exact watched_lookup (watched_pure rfl) fun _ => fdPicoSocketClose_watched inner fd ret

/-! The steps -/

theorem setSlot_fdErr {g g' : Globals ℕ} {i : ℤ} {l : Option (FdElem ℕ)}
    (h : FdTable.setSlot g i l = .ok g') : g'.fdErr = g.fdErr := by
  rw [setSlot.eq_def] at h
  split at h
  · cases h
  · split at h
    · cases h
      rfl
    · cases h

theorem growTable_fdErr {g g' : Globals ℕ} {ok : Bool} (h : growTable g ok = .ok (some g')) :
    g'.fdErr = g.fdErr := by
  rw [growTable.eq_def] at h
  dsimp only at h
  split at h
  · split at h
    · cases h
    · cases h
      rfl
  · cases h

theorem setIsIpv6_fdErr {g g' : Globals ℕ} {newFd v : ℤ} (h : Family.setIsIpv6 g newFd v = .ok g') :
    g'.fdErr = g.fdErr := by
  rw [Family.setIsIpv6] at h
  cases hs : slot g newFd with
  | error f => simp [hs, Bind.bind, Except.bind] at h
  | ok o =>
    simp only [hs, Bind.bind, Except.bind] at h
    cases o with
    | none =>
      cases h
      rfl
    | some l => exact setSlot_fdErr h

theorem init_fdErr (g : Globals ℕ) (rlimCur : ℕ) : (FdTable.init g rlimCur).fdErr = g.fdErr := by
  rw [FdTable.init]

theorem stored_eq_some {g g' : Shared} {r : Except Fault (Globals ℕ)} {u : Unit}
    (h : stored g r = some (u, g')) : ∃ globals, r = .ok globals ∧ g' = { g with globals } := by
  cases r with
  | error f => cases h
  | ok globals =>
    cases h
    exact ⟨globals, rfl, rfl⟩

/-- Only an assignment changes `fd_err`. -/
theorem handler_fdErr {g g' : Shared} {a : Action} {r : Answer a} (h : handler g a = some (r, g'))
    (ha : ∀ e, a ≠ .setErr e) : g'.globals.fdErr = g.globals.fdErr := by
  cases a with
  | setErr e => exact absurd rfl (ha e)
  | lookup fd =>
    have h : (slot g.globals fd).toOption.map (·, g) = some (r, g') := h
    obtain ⟨o, -, he⟩ := Option.map_eq_some_iff.mp h
    rw [← (Prod.mk.inj he).2]
  | launch =>
    have h : some (g.threadLaunched, { g with threadLaunched := true }) = some (r, g') := h
    rw [← (Prod.mk.inj (Option.some.inj h)).2]
  | init rlimCur =>
    have h : some ((), { g with globals := FdTable.init g.globals rlimCur }) = some (r, g') := h
    rw [← (Prod.mk.inj (Option.some.inj h)).2]
    exact init_fdErr g.globals rlimCur
  | sizes =>
    have h : some ((g.globals.fdTableSize, g.globals.maxFd), g) = some (r, g') := h
    rw [← (Prod.mk.inj (Option.some.inj h)).2]
  | grow ok =>
    have h : handleGrow g ok = some (r, g') := h
    rw [handleGrow] at h
    split at h
    · next hg =>
      rw [← (Prod.mk.inj (Option.some.inj h)).2]
      exact growTable_fdErr hg
    · rw [← (Prod.mk.inj (Option.some.inj h)).2]
    · cases h
  | setSlot fd l =>
    obtain ⟨globals, hs, rfl⟩ := stored_eq_some h
    exact setSlot_fdErr hs
  | setIsIpv6 fd v =>
    obtain ⟨globals, hs, rfl⟩ := stored_eq_some h
    exact setIsIpv6_fdErr hs
  | waitonSem c fd =>
    have h : handleWait g c fd = some (r, g') := h
    rw [handleWait] at h
    split at h
    · split at h
      · obtain ⟨globals, hs, rfl⟩ := stored_eq_some h
        exact setSlot_fdErr hs
      · cases h
    · cases h
  | unlockSem c fd =>
    have h : handleUnlock g c fd = some (r, g') := h
    rw [handleUnlock] at h
    split at h
    · obtain ⟨globals, hs, rfl⟩ := stored_eq_some h
      exact setSlot_fdErr hs
    · cases h
  | stop => cases h

theorem handler_may (g : Shared) (a : Action) (r : Answer a) (g' : Shared)
    (h : handler g a = some (r, g')) : monitor.may a r := by
  cases a with
  | setSlot fd l =>
    obtain ⟨globals, hs, -⟩ := stored_eq_some h
    exact (inTable_of_setSlot hs).2.1
  | setErr | lookup | launch | init | sizes | grow | setIsIpv6 | waitonSem | unlockSem | stop =>
    trivial

/-- `handle_wakeup` does not set `fd_err` while it looks for the entry, nor if it has one. -/
theorem handleWakeup_frame {w v : Process} {ev : BitVec 16} {a : ℕ}
    (h : handleWakeup w ev a = some v) : v.globals.fdErr = w.globals.fdErr ∧ v.call = w.call := by
  rw [handleWakeup] at h
  split at h
  · cases h
  · cases h
    exact ⟨rfl, rfl⟩
  · simp only [Option.map_eq_some_iff] at h
    obtain ⟨globals, hs, rfl⟩ := h
    refine ⟨?_, rfl⟩
    cases hset : FdTable.setSlot w.globals _ _ with
    | error f => rw [hset] at hs; cases hs
    | ok u =>
      rw [hset] at hs
      cases hs
      exact setSlot_fdErr hset

/-- What the call in progress has done to `fd_err`. -/
def Done (w : World) : Option FdErr → Prop
  | none => w.own = false
  | some _ => w.own = ! w.late ∧ w.recorded = true

/-- What every step keeps. -/
structure Inv (w : World) : Prop where
  clean : w.recorded = false ↔ w.globals.fdErr = .ok
  call : ∀ p, w.call = some p → ∃ e, Watched monitor Fits e p ∧ Done w e

theorem inv_begin : Inv begin := ⟨by simp [begin, start], by simp [begin]⟩

theorem isStatus_of_ret {w : World} (h : w.ret = none) : IsStatus w := by
  intro v hv
  rw [h] at hv
  cases hv

/-- A return is right exactly if its exit is settled. -/
theorem isStatus_next {w : World} {x : Exit} {e : Option FdErr} (h : Inv w) (hx : Fits e x)
    (hd : Done w e) (hc : w.call = some (.ret x)) :
    IsStatus (w.next .app { w.toProcess with call := none }) ↔ x.Settled w := by
  have hret : (w.next .app { w.toProcess with call := none }).ret = x.value := by
    simp only [World.next, returns, hc]
  have hown : (w.next .app { w.toProcess with call := none }).own = w.own := by
    simp [World.next, writer, hc]
  have herr : (w.next .app { w.toProcess with call := none }).globals.fdErr = w.globals.fdErr := rfl
  simp only [IsStatus, hret, hown, herr]
  cases x with
  | kernel => simp [Exit.value, Exit.Settled]
  | opened fd =>
    have hne : fd ≠ -1 := by
      have h0 := hx.2
      omega
    simp [Exit.value, Exit.Settled, hne, h.clean]
  | recorded e' =>
    obtain rfl : e = some e' := hx
    have hbad : w.globals.fdErr ≠ .ok := by
      rw [ne_eq, ← h.clean, hd.2]
      simp
    simp [Exit.value, Exit.Settled, hbad, hd.1]
  | silent why =>
    obtain rfl : e = none := hx
    have hno : w.own = false := hd
    simp [Exit.value, Exit.Settled, hno]
  | answer ret =>
    obtain rfl : e = none := hx
    have hno : w.own = false := hd
    by_cases hret : ret = -1
    · simp [Exit.value, Exit.Settled, hret, hno]
    · simp [Exit.value, Exit.Settled, hret, h.clean]

section Step
variable {inner : Binding} {w : World}

/-- A step that leaves `fd_err` alone. -/
theorem Inv.quiet (h : Inv w) {a : Act} {v : Process} (hwriter : writer w.toProcess a = none)
    (hcall : ∀ r, a ≠ .call r) (herr : v.globals.fdErr = w.globals.fdErr)
    (hprog : ∀ p, v.call = some p → ∃ e, Watched monitor Fits e p ∧ Done w e) : Inv (w.next a v) := by
  have hown : (w.next a v).own = w.own ∧ (w.next a v).late = w.late ∧
      (w.next a v).recorded = w.recorded := by
    cases a with
    | call r => exact absurd rfl (hcall r)
    | app | wakeup | notFound => simp [World.next, hwriter]
  obtain ⟨hown, hlate, hrecorded⟩ := hown
  refine ⟨?_, fun p hp => ?_⟩
  · rw [hrecorded, h.clean, ← herr]
    exact .rfl
  · obtain ⟨e, hwatched, hd⟩ := hprog p hp
    refine ⟨e, hwatched, ?_⟩
    cases e with
    | none => exact hown.trans hd
    | some e => exact ⟨by rw [hown, hlate, hd.1], hrecorded.trans hd.2⟩

theorem writer_of_ne {w : Process} {a : Action} {k : Answer a → Call} (hc : w.call = some (.act a k))
    (ha : ∀ e, a ≠ .setErr e) : writer w .app = none := by
  simp only [writer, hc]
  split
  · next heq =>
    cases heq
    exact absurd rfl (ha _)
  · rfl

/-- STEP of a call: `fd_err` is set once, and to an error. -/
theorem inv_act (h : Inv w) {a : Action} {k : Answer a → Call} (hc : w.call = some (.act a k))
    {v : Process} (hs : w.toProcess.step inner .app = some v) :
    Inv (w.next .app v) ∧ returns w.toProcess .app = none := by
  refine ⟨?_, by simp [returns, hc]⟩
  simp only [Process.step, hc, Option.map_eq_some_iff, Prod.exists] at hs
  obtain ⟨g, p, hnext, rfl⟩ := hs
  obtain ⟨e, hwatched, hd⟩ := h.call _ hc
  obtain ⟨a', k', r, hact, hh, hallows, hrest⟩ := hwatched.step handler_may hnext
  obtain ⟨rfl, -⟩ : a = a' ∧ HEq k k' := by
    injection hact with ha hk
    exact ⟨ha, hk⟩
  by_cases ha : ∃ e', a = .setErr e'
  · obtain ⟨e', rfl⟩ := ha
    obtain ⟨rfl, herr⟩ := hallows
    have hg : { w.toShared with globals := w.globals.fail e' } = g := (Prod.mk.inj (Option.some.inj hh)).2
    subst hg
    refine ⟨?_, fun q hq => ?_⟩
    · simp [World.next, writer, hc, Globals.fail, herr]
    · cases hq
      exact ⟨some e', hrest, by simp [World.next, writer, hc], by simp [World.next, writer, hc]⟩
  · have hne : ∀ e', a ≠ .setErr e' := fun e' h => ha ⟨e', h⟩
    have hstay : monitor.next e a = e := by
      cases a with
      | setErr e' => exact absurd rfl (hne e')
      | lookup | launch | init | sizes | grow | setSlot | setIsIpv6 | waitonSem | unlockSem | stop =>
        rfl
    refine h.quiet (writer_of_ne hc hne) (by simp) (handler_fdErr hh hne) ?_
    rintro q hq
    cases hq
    exact ⟨e, hstay ▸ hrest, hd⟩

/-- STEP: `fd_err` is the status after a return exactly if the exit is settled. -/
theorem status_step {w' : World} {a : Act} (h : Inv w) (hs : step inner w a = some w') :
    Inv w' ∧ (IsStatus w' ↔ Settled w a) := by
  rw [step, Option.map_eq_some_iff] at hs
  obtain ⟨v, hs, rfl⟩ := hs
  cases a with
  | call r =>
    refine ⟨⟨?_, ?_⟩, iff_of_true (isStatus_of_ret rfl) trivial⟩
    · simp only [Process.step, Option.ite_none_right_eq_some, Option.some.injEq] at hs
      obtain ⟨-, rfl⟩ := hs
      simpa [World.next, writer] using h.clean
    · simp only [Process.step, Option.ite_none_right_eq_some, Option.some.injEq] at hs
      obtain ⟨-, rfl⟩ := hs
      rintro p hp
      cases hp
      exact ⟨none, watched_call inner r, rfl⟩
  | app =>
    cases hc : w.call with
    | none => simp [Process.step, hc] at hs
    | some p =>
      cases p with
      | ret x =>
        simp only [Process.step, hc, Option.some.injEq] at hs
        subst hs
        obtain ⟨e, hx, hd⟩ := h.call _ hc
        refine ⟨h.quiet (by simp [writer, hc]) (by simp) rfl (by simp), ?_⟩
        rw [isStatus_next h hx hd hc]
        simp only [Settled, hc]
      | act a k =>
        obtain ⟨hinv, hret⟩ := inv_act h hc hs
        exact ⟨hinv, iff_of_true (isStatus_of_ret hret) (by simp only [Settled, hc])⟩
  | wakeup ev a =>
    simp only [Process.step, Option.ite_none_left_eq_some] at hs
    obtain ⟨herr, hcall⟩ := handleWakeup_frame hs.2
    refine ⟨h.quiet rfl (by simp) herr fun p hp => ?_,
      iff_of_true (isStatus_of_ret rfl) trivial⟩
    exact h.call p (hcall.symm.trans hp)
  | notFound =>
    simp only [Process.step, Option.ite_none_right_eq_some, Option.some.injEq] at hs
    obtain ⟨-, rfl⟩ := hs
    refine ⟨⟨?_, fun p hp => ?_⟩, iff_of_true (isStatus_of_ret rfl) trivial⟩
    · simp [World.next, writer, Globals.fail]
    · obtain ⟨e, hwatched, hd⟩ := h.call p hp
      refine ⟨e, hwatched, ?_⟩
      cases e with
      | none => rfl
      | some e => exact ⟨rfl, by simp [World.next, writer]⟩

end Step

/-- THE STATUS OF THE LAST CALL: in every run, `fd_err` is the status right after each call exactly if
    each failure leaves by an exit that records it and no `handle_wakeup` sets `fd_err` before the
    return, and no call succeeds once `fd_err` has been set. -/
theorem status_iff {inner : Binding} {as : List Act} {w : World}
    (hr : run (step inner) begin as = some w) :
    Everywhere (step inner) IsStatus begin as ↔ Meets (step inner) Settled begin as := by
  refine everywhere_iff_meets (I := Inv) ?_ inv_begin (isStatus_of_ret rfl) hr
  exact fun w a w' h _ hs => status_step h hs

/-- What a `socket()` meets when all goes well. -/
def wellEnv : OpenEnv := ⟨1024, true, 0, some 50, some (3, 4), .all⟩

/-- `pipe()` fails at the first `socket()`, and the second one opens a descriptor. -/
def retried : List Act :=
  .call (.socket afPicoInet sockStream { wellEnv with pipe := none }) :: List.replicate 4 .app ++
    .call (.socket afPicoInet sockStream wellEnv) :: List.replicate 6 .app

theorem retried_runs : (run (step .libc) begin retried).isSome := by decide +kernel

/-- The old failure is still there. -/
theorem stale_error : ¬ ∀ as w, run (step .libc) begin as = some w → IsStatus w := by
  intro h
  have hret : (Option.get _ retried_runs).ret = some 3 := by decide +kernel
  have herr : (Option.get _ retried_runs).globals.fdErr = .pipeNotInitialized := by decide +kernel
  have hok := (h retried _ (Option.some_get retried_runs).symm 3 hret).2 (by decide)
  rw [herr] at hok
  cases hok

/-- A descriptor is opened, data comes for it, and `pipe()` fails at the next `socket()`. -/
def failsLast : List Act :=
  .call (.socket afPicoInet sockStream wellEnv) :: List.replicate 7 .app ++
    .wakeup picoSockEvRd 50 :: .call (.socket afPicoInet sockStream { wellEnv with pipe := none }) ::
      List.replicate 3 .app

theorem failsLast_runs : (run (step .libc) begin failsLast).isSome := by decide +kernel

theorem status_iff_failsLast : Everywhere (step .libc) IsStatus begin failsLast :=
  (status_iff (Option.some_get failsLast_runs).symm).mpr (by decide +kernel)

/-- NEVER RESET: an error stays until another one takes its place. -/
theorem error_stays {inner : Binding} {as bs : List Act} {w w' : World}
    (hr : run (step inner) begin as = some w) (hr' : run (step inner) w bs = some w')
    (herr : w.globals.fdErr ≠ .ok) : w'.globals.fdErr ≠ .ok := by
  have hinv : ∀ w a w', Inv w → step inner w a = some w' → Inv w' :=
    fun w a w' h hs => (status_step h hs).1
  have h := run_invariant hinv inv_begin hr
  have hstay : Inv w' ∧ w'.recorded = true := by
    refine run_invariant (I := fun w => Inv w ∧ w.recorded = true) ?_ ⟨h, ?_⟩ hr'
    · rintro w a w' ⟨h, hrec⟩ hs
      refine ⟨hinv w a w' h hs, ?_⟩
      rw [step, Option.map_eq_some_iff] at hs
      obtain ⟨v, -, rfl⟩ := hs
      simp [World.next, hrec]
    · rw [← Bool.not_eq_false, h.clean]
      exact herr
  rw [ne_eq, ← hstay.1.clean, hstay.2]
  simp

end FdPicotcp.Status
