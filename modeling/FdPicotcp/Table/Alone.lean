import FdPicotcp.Table.Accept
import FdPicotcp.Table.Calls
import FdPicotcp.Table.Creators
import FdPicotcp.Wrapper.Descriptor

/-! A call that nobody disturbs: do the models of `fd_elem_create` and of `accept()` agree?

    `FdTable` has `fd_elem_create` at once; in `Status` it is a program on the globals, in `Creators` a
    thread that copies the table slot by slot. `Accept` has the call with the socket, the address and
    the port, `Status` what it does to the globals, `Descriptor` its steps on the semaphore and the
    socket. Left alone, programs and threads end as the functions do. -/

namespace FdPicotcp.Alone
open Program FdTable Status

/-! The programs -/

section Programs
variable {g : Status.Shared}

/-- An exit of `fd_elem_create`, by the descriptor that the table function returns. -/
inductive Ends (ret : ℤ) : Exit → Prop
  | opened (hpos : 0 ≤ ret) : Ends ret (.opened ret)
  | recorded (e : FdErr) (hret : ret = -1) : Ends ret (.recorded e)
  | silent (why : Silent) (hret : ret = -1) : Ends ret (.silent why)

/-- The program goes through where the table function has no fault, and leaves the same globals. -/
def Agrees (g : Status.Shared) (o : Option (Exit × Status.Shared)) :
    Except Fault (ℤ × Globals ℕ) → Prop
  | .error _ => o = none
  | .ok (ret, globals) => ∃ x, o = some (x, { g with globals }) ∧ Ends ret x

theorem insertElem_agrees (l : FdElem ℕ) :
    Agrees g ((Status.insertElem l).exec handler g) (FdTable.insertElem g.globals l) := by
  simp only [Status.insertElem, FdTable.insertElem, exec_bind, exec_lookup]
  cases slot g.globals l.fd.1 with
  | error f => rfl
  | ok o =>
    cases o with
    | some l' => exact ⟨_, rfl, .recorded _ rfl⟩
    | none =>
      change Agrees g
        ((storeSlot l.fd.1 (some l) >>= fun _ => pure (.opened l.fd.1)).exec handler g)
        ((FdTable.setSlot g.globals l.fd.1 (some l)).bind fun g => .ok (l.fd.1, g))
      rw [exec_bind, exec_storeSlot]
      cases hset : FdTable.setSlot g.globals l.fd.1 (some l) with
      | error f => rfl
      | ok globals => exact ⟨_, rfl, .opened (inTable_of_setSlot hset).2.1⟩

theorem fdElemCreate_agrees (alloc : Alloc) (fd : ℤ × ℤ) (s : ℕ) :
    Agrees g ((Status.fdElemCreate alloc fd s).exec handler g)
      (FdTable.fdElemCreate g.globals alloc fd s) := by
  rw [Status.fdElemCreate, FdTable.fdElemCreate]
  split
  · exact ⟨_, rfl, .recorded _ rfl⟩
  split
  · exact ⟨_, rfl, .recorded _ rfl⟩
  split
  · exact ⟨_, rfl, .silent _ rfl⟩
  rw [exec_bind, exec_sizes, Option.bind_some]
  dsimp only
  split
  · split
    · exact ⟨_, rfl, .recorded _ rfl⟩
    · rw [exec_bind, exec_grow, handleGrow]
      cases hg : growTable g.globals alloc.table with
      | error f => rfl
      | ok o =>
        cases o with
        | none => exact ⟨_, rfl, .silent _ rfl⟩
        | some globals => exact insertElem_agrees (g := { g with globals }) _
  · exact insertElem_agrees _

/-- The entry of a new descriptor counts as the entry of `Elem` does. -/
theorem fdElemCreate_entry {globals globals' : Globals ℕ} {alloc : Alloc} {fd : ℤ × ℤ} {s : ℕ}
    {ret : ℤ} (h : FdTable.fdElemCreate globals alloc fd s = .ok (ret, globals')) (hpos : 0 ≤ ret) :
    ∃ e, entry globals' ret = some e ∧ e.fdWriteCount = Elem.fdElemCreate.fdWriteCount ∧
      ∀ c, semOf c e = Elem.fdElemCreate.sem c := by
  rcases (fdElemCreate_created h).map with ⟨hneg, -⟩ | ⟨rfl, -, hentry, -⟩
  · omega
  · refine ⟨_, hentry, rfl, fun c => ?_⟩
    cases c <;> rfl

/-- What comes after `fd_elem_create` is done with a descriptor only. -/
theorem ifOpened_exec {newFd : Call} {rest : ℤ → Call} {ret : ℤ} {globals : Globals ℕ}
    (h : Agrees g (newFd.exec handler g) (.ok (ret, globals))) :
    0 ≤ ret ∧ (ifOpened newFd rest).exec handler g = (rest ret).exec handler { g with globals } ∨
      ret = -1 ∧ reported ((ifOpened newFd rest).exec handler g) = some (some (-1), globals) := by
  obtain ⟨x, hx, hends⟩ := h
  rw [ifOpened, exec_bind, hx, Option.bind_some]
  cases hends with
  | opened hpos => exact .inl ⟨hpos, rfl⟩
  | recorded e hret => exact .inr ⟨hret, rfl⟩
  | silent why hret => exact .inr ⟨hret, rfl⟩

/-! `accept()` -/

variable {w : Accept.World} {fd : ℤ} {env : Accept.Env} {given : Accept.Given} {l : FdElem ℕ}

theorem handOut_exec {c : ℕ} {strAddr : List Char} {pPort : ℤ} {launched : Bool}
    (h : Accept.handOut w l c strAddr pPort env = .ok given) :
    reported ((ifOpened (Status.fdElemCreate env.alloc (env.pipe.getD env.junk) c) fun newFd => do
      if l.isIpv6 ≠ 0 then storeIsIpv6 newFd 1
      return .opened newFd).exec handler ⟨w.globals, launched⟩) =
        some (some given.ret, given.world.globals) := by
  have hagrees := fdElemCreate_agrees (g := ⟨w.globals, launched⟩) env.alloc
    (env.pipe.getD env.junk) c
  simp only [Accept.handOut] at h
  split at h
  · cases h
  · next newFd globals hcreate =>
    dsimp only at hagrees
    rw [hcreate] at hagrees
    obtain ⟨hpos, hexec⟩ | ⟨hneg, hexec⟩ := ifOpened_exec hagrees
    · rw [hexec]
      rw [if_neg (by omega)] at h
      by_cases h4 : l.isIpv6 = 0
      · rw [if_pos h4] at h
        cases h
        simp only [ne_eq, h4, not_true_eq_false, if_false]
        rfl
      · rw [if_neg h4] at h
        simp only [ne_eq, h4, not_false_eq_true, if_true]
        cases hset : Family.setIsIpv6 globals newFd 1 with
        | error f =>
          rw [hset] at h
          cases h
        | ok u =>
          rw [hset] at h
          cases h
          rw [exec_bind, exec_storeIsIpv6]
          simp only [hset]
          rfl
    · rw [if_pos (by omega)] at h
      cases h
      exact hexec

/-- The connection that the call gets, if there is one. -/
def child (w : Accept.World) (l : FdElem ℕ) : Option ℕ :=
  (w.heap l.socket).bind fun s =>
    (Socket.picoSocketAccept s).2.map fun c => (w.peer c.remote).socket

/-- ACCEPT: a call that comes back is the program with the connection that the socket hands out. -/
theorem fdPicoSocketAccept_exec {launched : Bool}
    (hl : slot w.globals fd = .ok (some l)) (h : Accept.fdPicoSocketAccept w fd env = .ok given) :
    reported ((Status.fdPicoSocketAccept fd
      ⟨env.port, child w l, env.pipe, env.junk, env.alloc⟩).exec handler ⟨w.globals, launched⟩) =
        some (some given.ret, given.world.globals) := by
  obtain ⟨v, hwait, htake⟩ := Accept.fdPicoSocketAccept_eq hl h
  obtain ⟨hpos, hheap, hnet, hpeer, hset⟩ := Accept.waitonSem_spec hwait
  have hsem : handleWait ⟨w.globals, launched⟩ .accept fd = some ((), ⟨v.globals, launched⟩) := by
    simp only [handleWait, hl, semOf, withSem, if_pos hpos, hset]
    rfl
  rw [Status.fdPicoSocketAccept, exec_lookup_entry hl]
  simp only [exec_bind, exec_waitonSem, hsem, Option.bind_some]
  rw [Accept.takeChild, hheap] at htake
  cases hsock : w.heap l.socket with
  | none =>
    rw [hsock] at htake
    cases htake
  | some s =>
    simp only [hsock, hnet, hpeer] at htake
    simp only [child, hsock, Option.bind_some]
    rcases hacc : Socket.picoSocketAccept s with ⟨s', _ | c⟩
    · rw [hacc] at htake
      cases htake
      rfl
    · simp only [hacc] at htake
      split at htake
      · cases htake
      split at htake
      · cases htake
      next hport =>
        simp only [Option.map_some]
        rw [if_neg hport]
        exact handOut_exec (w := ⟨v.globals, _, w.net, w.peer⟩) htake

/-- A call that gets no connection leaves the socket as it is. -/
theorem picoSocketAccept_none {s s' : Socket.PicoSocket}
    (h : Socket.picoSocketAccept s = (s', none)) : s' = s := by
  rw [Socket.picoSocketAccept] at h
  split at h
  · cases h
    rfl
  · split at h <;> cases h
    rfl

/-- The steps of a thread past its semaphore. -/
theorem acceptSteps_eq {n : ℕ} {d : Descriptor.Desc n} {p : Fin n} (hpos : 0 < d.sem .accept)
    (hpc : d.thread p = .acceptWait) :
    ∃ d', Transition.run Descriptor.step d [.thread p, .thread p] = some d' ∧
      d'.thread p = .acceptDone (Socket.picoSocketAccept d.socket).2 ∧
      d'.socket = (Socket.picoSocketAccept d.socket).1 ∧ d'.sem .accept = d.sem .accept - 1 := by
  let u : Descriptor.Desc n := { d.goto p .sockAccept with
    sem := Function.update d.sem .accept (d.sem .accept - 1) }
  have hwait : Descriptor.step d (.thread p) = some u := by
    simp only [Descriptor.step, Descriptor.threadStep, hpc]
    rw [if_pos hpos]
  have hu : u.thread p = .sockAccept := Function.update_self ..
  have htake : Descriptor.step u (.thread p) = some
      { u.goto p (.acceptDone (Socket.picoSocketAccept d.socket).2) with
        socket := (Socket.picoSocketAccept d.socket).1 } := by
    simp only [Descriptor.step, Descriptor.threadStep, hu]
    rfl
  have htoken : u.sem .accept = d.sem .accept - 1 := by simp only [u, Function.update_self]
  exact ⟨_, Transition.run_cons.mpr ⟨u, hwait, Transition.run_cons.mpr ⟨_, htake,
    Transition.run_nil _⟩⟩, Function.update_self .., rfl, htoken⟩

/-- ACCEPT, as a thread of `Descriptor` makes it: two steps take the token and the connection that
    the call takes. -/
theorem accept_steps {n : ℕ} {d : Descriptor.Desc n} {p : Fin n} (hl : slot w.globals fd = .ok (some l))
    (hsock : w.heap l.socket = some d.socket) (hsem : d.sem .accept = l.acceptSem)
    (hpc : d.thread p = .acceptWait) (h : Accept.fdPicoSocketAccept w fd env = .ok given) :
    ∃ d' c, Transition.run Descriptor.step d [.thread p, .thread p] = some d' ∧
      d'.thread p = .acceptDone c ∧ given.world.heap l.socket = some d'.socket ∧
      entry given.world.globals fd = some { l with acceptSem := d'.sem .accept } ∧
      (c = none → given.ret = -1) := by
  obtain ⟨v, hwait, htake⟩ := Accept.fdPicoSocketAccept_eq hl h
  obtain ⟨hpos, hheap, -, -, hset⟩ := Accept.waitonSem_spec hwait
  obtain ⟨hentry, hchild⟩ := Accept.takeChild_lost (setSlot_entry hset).1 htake
  obtain ⟨d', hrun, hthread, hsocket, htoken⟩ := acceptSteps_eq (by omega) hpc
  refine ⟨d', _, hrun, hthread, ?_, by rw [hentry, htoken, hsem], ?_⟩
  · rw [hsocket]
    rcases hacc : Socket.picoSocketAccept d.socket with ⟨s, _ | c⟩
    · rw [Accept.takeChild, hheap, hsock] at htake
      simp only [hacc] at htake
      cases htake
      rw [picoSocketAccept_none hacc]
      exact hheap ▸ hsock
    · rw [hchild d.socket c ⟨hheap ▸ hsock, by rw [hacc]⟩, hacc]
  · intro hnone
    rw [Accept.takeChild, hheap, hsock] at htake
    rcases hacc : Socket.picoSocketAccept d.socket with ⟨s, c⟩
    rw [hacc] at hnone
    obtain rfl : c = none := hnone
    simp only [hacc] at htake
    cases htake
    rfl

end Programs

/-! A thread -/

section Thread
open Transition Creators CInt
open Threads (Pool)

variable {σ ι : Type} {i : ι} {p : ι → Pc σ} {g g' : Creators.Shared σ} {t t' : Globals σ}
  {arr b : Arr σ} {l : FdElem σ} {new j k : ℕ}

theorem put_put (g : Creators.Shared σ) (a : ℕ) (b c : Arr σ) : (g.put a b).put a c = g.put a c := by
  simp only [Shared.put, Function.update_idem]

theorem put_same {a : ℕ} (h : g.arrays a = some b) : g.put a b = g := by
  rw [Shared.put, ← h, Function.update_eq_self]

/-- A slot of the array for a slot of the table. -/
def cell : Option (FdElem σ) → Cell σ
  | none => .null
  | some e => .elem e

/-- `fd_table` points to an array with the slots of the table. -/
structure Shows (g : Creators.Shared σ) (t : Globals σ) (arr : Arr σ) : Prop where
  table : t.fdTable.isSome
  size : t.fdTableSize = g.fdTableSize
  maxFd : t.maxFd = g.maxFd
  array : g.arrays g.fdTable = some arr
  steady : Steady g arr
  cells : ∀ i < arr.cells.length, ∃ o, slot t i = .ok o ∧ arr.cells[i]? = some (cell o)

theorem Shows.inTable (h : Shows g t arr) (x : ℤ) :
    InTable t x ↔ 0 ≤ x ∧ x.toNat < arr.cells.length := by
  have hlen : t.fdTableSize = arr.cells.length := by rw [h.size, h.steady.2]
  simp only [InTable, h.table, true_and]
  omega

theorem Shows.load (h : Shows g t arr) (x : ℤ) :
    load g g.fdTable x = (slot t x).toOption.map cell := by
  cases hs : slot t x with
  | error f =>
    rw [Except.toOption, Option.map_none, Option.eq_none_iff_forall_ne_some]
    intro c hc
    obtain ⟨arr', harr', -, hpos, hget⟩ := load_some.mp hc
    rw [h.array, Option.some.injEq] at harr'
    subst harr'
    obtain ⟨hx, -⟩ := List.getElem?_eq_some_iff.mp hget
    obtain ⟨o, ho⟩ := slot_of_inTable ((h.inTable x).mpr ⟨hpos, hx⟩)
    rw [hs] at ho
    cases ho
  | ok o =>
    obtain ⟨hpos, hx⟩ := (h.inTable x).mp (slot_ok_iff.mp ⟨o, hs⟩)
    obtain ⟨o', ho, hget⟩ := h.cells x.toNat hx
    rw [Int.toNat_of_nonneg hpos, hs, Except.ok.injEq] at ho
    subst ho
    exact load_some.mpr ⟨arr, h.array, h.steady.1, hpos, hget⟩

/-- The insertion into an empty slot. -/
theorem Shows.insert (h : Shows g t arr) {x : ℤ} {e : FdElem σ}
    (ht : setSlot t x (some e) = .ok t') : ∃ g' b, store g g.fdTable x (.elem e) = some g' ∧
      Shows g' t' b ∧ g'.returned = g.returned := by
  have hin := inTable_of_setSlot ht
  obtain ⟨t'', ht'', hsize, hmax, hself, hother⟩ := setSlot_spec hin (some e)
  rw [ht, Except.ok.injEq] at ht''
  subst ht''
  obtain ⟨hpos, hx⟩ := (h.inTable x).mp hin
  refine ⟨_, _, store_some.mpr ⟨arr, h.array, h.steady.1, hpos, hx, rfl⟩,
    ⟨setSlot_allocated ht, hsize.trans h.size, hmax.trans h.maxFd, put_self ..,
      ⟨h.steady.1, by rw [List.length_set]; exact h.steady.2⟩, ?_⟩, rfl⟩
  intro n hn
  rw [List.length_set] at hn
  by_cases hnx : n = x.toNat
  · subst hnx
    refine ⟨some e, ?_, List.getElem?_set_self hx⟩
    rw [Int.toNat_of_nonneg hpos]
    exact hself
  · rw [hother n (by omega), List.getElem?_set_ne fun he => hnx he.symm]
    exact h.cells n hn

variable [DecidableEq σ] [DecidableEq ι]

/-- Only the thread `i` moves. -/
def Solo (i : ι) (s u : Pool ι (Creators.Shared σ) (Pc σ)) : Prop :=
  Transition.Path (Threads.step createStep) (fun _ a => a.1 = i) s u

/-- The pool with the thread `i` at `pc`. -/
def pool (i : ι) (p : ι → Pc σ) (g : Creators.Shared σ) (pc : Pc σ) :
    Pool ι (Creators.Shared σ) (Pc σ) :=
  ⟨g, Function.update p i pc⟩

theorem Solo.trans {s u v : Pool ι (Creators.Shared σ) (Pc σ)} (h : Solo i s u) (h' : Solo i u v) :
    Solo i s v := Transition.Path.trans h h'

theorem solo_step {pc pc' : Pc σ} {e : Ev σ} (h : createStep g pc e = some (g', pc')) :
    Solo i (pool i p g pc) (pool i p g' pc') := by
  refine Transition.Path.single (a := (i, e)) rfl (Threads.step_eq_some.mpr ⟨g', pc', ?_, ?_⟩)
  · simpa only [pool, Function.update_self] using h
  · rw [pool, pool, Function.update_idem]

/-- The copying loop, by induction on the slots that are left. -/
theorem copy_loop (hk : j + k = arr.cells.length) (harr : g.arrays g.fdTable = some arr)
    (hsteady : Steady g arr) (hne : new ≠ g.fdTable) (hb : g.arrays new = some b)
    (hcopy : CopyOf arr b j 0) : ∃ b', CopyOf arr b' arr.cells.length 0 ∧
      Solo i (pool i p g (.copy l new j))
        (pool i p (g.put new b') (.copy l new arr.cells.length)) := by
  induction k generalizing g j b with
  | zero =>
    obtain rfl : j = arr.cells.length := hk
    exact ⟨b, hcopy, by rw [put_same hb]; exact Transition.Path.refl _⟩
  | succ k ih =>
    obtain ⟨hlive, hsize⟩ := hsteady
    have hj : j < arr.cells.length := by omega
    have hget : arr.cells[j]? = some arr.cells[j] := List.getElem?_eq_getElem hj
    have hload : load g g.fdTable j = some arr.cells[j] :=
      load_some.mpr ⟨arr, harr, hlive, by omega, by simp⟩
    have hstore := store_some (g := g) (c := arr.cells[j]).mpr
      ⟨b, hb, hcopy.freed, Int.natCast_nonneg j, by rw [hcopy.length]; simp; omega, rfl⟩
    have hone : createStep g (.copy l new j) .next =
        some (g.put new { b with cells := b.cells.set j arr.cells[j] }, .copy l new (j + 1)) := by
      rw [createStep, if_pos (by omega), hload, Option.bind_some, hstore]
      rfl
    obtain ⟨b', hb', hrest⟩ := ih (g := g.put new _) (by omega) ((put_other hne.symm g _).trans harr)
      ⟨hlive, hsize⟩ hne (put_self ..) (hcopy.copy hget)
    rw [put_put] at hrest
    exact ⟨b', hb', (solo_step hone).trans hrest⟩

/-- The clearing loop. -/
theorem clear_loop (hlo : arr.cells.length ≤ j) (hk : j + k = 2 * arr.cells.length)
    (hsize : g.fdTableSize = arr.cells.length) (hb : g.arrays new = some b)
    (hcopy : CopyOf arr b arr.cells.length j) :
    ∃ b', CopyOf arr b' arr.cells.length (2 * arr.cells.length) ∧
      Solo i (pool i p g (.clear l new j))
        (pool i p (g.put new b') (.clear l new (2 * arr.cells.length))) := by
  induction k generalizing g j b with
  | zero =>
    obtain rfl : j = 2 * arr.cells.length := hk
    exact ⟨b, hcopy, by rw [put_same hb]; exact Transition.Path.refl _⟩
  | succ k ih =>
    have hstore := store_some (g := g) (c := Cell.null).mpr
      ⟨b, hb, hcopy.freed, Int.natCast_nonneg j, by rw [hcopy.length]; simp; omega, rfl⟩
    have hone : createStep g (.clear l new j) .next =
        some (g.put new { b with cells := b.cells.set j .null }, .clear l new (j + 1)) := by
      rw [createStep, if_pos (by omega), hstore]
      rfl
    obtain ⟨b', hb', hrest⟩ := ih (g := g.put new _) (by omega) (by omega) hsize (put_self ..)
      (hcopy.clear hlo (by omega))
    rw [put_put] at hrest
    exact ⟨b', hb', (solo_step hone).trans hrest⟩

/-- GROWTH: malloc, both loops, and the switch to the new array. -/
theorem grow_alone (harr : g.arrays g.fdTable = some arr) (hsteady : Steady g arr)
    (hmem : ∃ a, g.arrays a = none) : ∃ g' b, g'.arrays g'.fdTable = some b ∧
      CopyOf arr b arr.cells.length (2 * arr.cells.length) ∧ g'.fdTableSize = 2 * g.fdTableSize ∧
      g'.maxFd = g.maxFd ∧ g'.returned = g.returned ∧
      Solo i (pool i p g (.malloc l)) (pool i p g' (.slotTest l)) := by
  obtain ⟨new, hnew⟩ := hmem
  obtain ⟨hlive, hsize⟩ := id hsteady
  have hne : new ≠ g.fdTable := by
    rintro rfl
    rw [hnew] at harr
    cases harr
  have hfresh : CopyOf arr ⟨List.replicate (2 * g.fdTableSize) .garbage, false⟩ 0 0 := by
    refine ⟨rfl, by rw [List.length_replicate, hsize], ?_, ?_⟩
    · exact fun i hi => absurd hi (Nat.not_lt_zero i)
    · exact fun i _ hi => absurd hi (Nat.not_lt_zero i)
  have hmalloc : createStep g (.malloc l) (.malloc (some new)) = some (g.put new
      ⟨List.replicate (2 * g.fdTableSize) .garbage, false⟩, .copy l new 0) := if_pos hnew
  obtain ⟨b, hb, hcopied⟩ := copy_loop (i := i) (p := p) (g := g.put new _) (l := l)
    (Nat.zero_add arr.cells.length) ((put_other hne.symm g _).trans harr) hsteady hne (put_self ..)
    hfresh
  rw [put_put] at hcopied
  have hends : createStep (g.put new b) (.copy l new arr.cells.length) .next =
      some (g.put new b, .clear l new arr.cells.length) := by
    rw [createStep, if_neg (by rw [← hsize]; exact Nat.lt_irrefl _)]
    exact congrArg (fun n => some (g.put new b, Pc.clear l new n)) hsize
  have hnone : CopyOf arr b arr.cells.length arr.cells.length :=
    ⟨hb.freed, hb.length, hb.old, fun i hle hi => absurd hi (Nat.not_lt.mpr hle)⟩
  obtain ⟨c, hc, hcleared⟩ := clear_loop (i := i) (p := p) (g := g.put new b) (l := l) le_rfl
    (two_mul arr.cells.length).symm hsize (put_self ..) hnone
  rw [put_put] at hcleared
  have hclear : createStep (g.put new c) (.clear l new (2 * arr.cells.length)) .next =
      some (g.put new c, .size l new) := by
    rw [createStep, if_neg (by rw [← hsize]; exact Nat.lt_irrefl _)]
  have hold : (g.put new c).arrays (g.put new c).fdTable = some arr :=
    (put_other hne.symm g c).trans harr
  have hfree : createStep { g.put new c with fdTableSize := 2 * g.fdTableSize } (.free l new) .next =
      some (({ g.put new c with fdTableSize := 2 * g.fdTableSize } : Creators.Shared σ).put g.fdTable
        { arr with freed := true }, .switch l new) := by
    simp only [createStep, hold, hlive, Bool.false_eq_true, if_false]
    rfl
  refine ⟨{ ({ g.put new c with fdTableSize := 2 * g.fdTableSize } : Creators.Shared σ).put g.fdTable
    { arr with freed := true } with fdTable := new }, c, ?_, hc, rfl, rfl, rfl, ?_⟩
  · exact (put_other hne _ _).trans (put_self ..)
  · exact (solo_step hmalloc).trans <| hcopied.trans <| (solo_step hends).trans <|
      hcleared.trans <| (solo_step hclear).trans <| (solo_step (e := .next) rfl).trans <|
      (solo_step hfree).trans <| solo_step (e := .next) rfl

/-- THE GROWTH shows the grown table. -/
theorem Shows.grow (h : Shows g t arr) {ok : Bool} (ht : growTable t ok = .ok (some t'))
    (hmem : ∃ a, g.arrays a = none) : ∃ g' b, Shows g' t' b ∧ g'.returned = g.returned ∧
      Solo i (pool i p g (.malloc l)) (pool i p g' (.slotTest l)) := by
  obtain ⟨hsize, htable, hmax, hold, hnew⟩ := growTable_spec ht
  obtain ⟨g', b, harr, hcopy, hgsize, hgmax, hret, hsolo⟩ :=
    grow_alone (i := i) (p := p) (l := l) h.array h.steady hmem
  have hlen : t.fdTableSize = arr.cells.length := by rw [h.size, h.steady.2]
  refine ⟨g', b, ⟨htable, by rw [hsize, h.size, hgsize]; rfl, by rw [hmax, h.maxFd, hgmax], harr,
    ⟨hcopy.freed, by rw [hgsize, hcopy.length, h.steady.2]⟩, ?_⟩, hret, hsolo⟩
  intro n hn
  rw [hcopy.length] at hn
  rcases Nat.lt_or_ge n arr.cells.length with hlt | hge
  · rw [hold n (by omega), hcopy.old n hlt]
    exact h.cells n hlt
  · exact ⟨none, hnew n (by omega) (by omega), hcopy.empty n hge hn⟩

/-- How a thread leaves the call: with the descriptor it returns, or at a fault. -/
def Leaves (i : ι) (p : ι → Pc σ) (g : Creators.Shared σ) (pc : Pc σ) (l : FdElem σ) :
    Except Fault (ℤ × Globals σ) → Prop
  | .error _ => ∃ g', Solo i (pool i p g pc) (pool i p g' .fault)
  | .ok (ret, t) => ∃ g' arr, Solo i (pool i p g pc) (pool i p g' .out) ∧ Shows g' t arr ∧
    g'.returned = if ret = -1 then g.returned else l :: g.returned

theorem Leaves.after {pc pc' : Pc σ} {r : Except Fault (ℤ × Globals σ)}
    (h : Leaves i p g' pc' l r) (hsolo : Solo i (pool i p g pc) (pool i p g' pc'))
    (hret : g'.returned = g.returned) : Leaves i p g pc l r := by
  cases r with
  | error f =>
    obtain ⟨u, hu⟩ := h
    exact ⟨u, hsolo.trans hu⟩
  | ok r =>
    obtain ⟨u, arr, hu, hshows, hreturned⟩ := h
    exact ⟨u, arr, hsolo.trans hu, hshows, by rw [hreturned, hret]⟩

/-- A refusal leaves the table as it is; `fd_err` is not part of it. -/
theorem leaves_refused (h : Shows g t arr) (hfail : t' = t ∨ ∃ e, t' = t.fail e) {pc : Pc σ}
    (hsolo : Solo i (pool i p g pc) (pool i p g .out)) : Leaves i p g pc l (.ok (-1, t')) := by
  refine ⟨g, arr, hsolo, ?_, rfl⟩
  rcases hfail with rfl | ⟨e, rfl⟩
  · exact h
  · exact ⟨h.table, h.size, h.maxFd, h.array, h.steady, h.cells⟩

theorem insertElem_leaves (h : Shows g t arr) (l : FdElem σ) :
    Leaves i p g (.slotTest l) l (FdTable.insertElem t l) := by
  have hload := h.load l.fd.1
  rw [FdTable.insertElem]
  cases hs : slot t l.fd.1 with
  | error f =>
    rw [hs] at hload
    exact ⟨g, solo_step (e := .next) (by simp only [createStep, hload]; rfl)⟩
  | ok o =>
    rw [hs] at hload
    cases o with
    | some e =>
      exact leaves_refused h (.inr ⟨_, rfl⟩)
        (solo_step (e := .next) (by simp only [createStep, hload]; rfl))
    | none =>
      obtain ⟨t', ht', -⟩ := setSlot_spec (slot_ok_iff.mp ⟨_, hs⟩) (some l)
      obtain ⟨g', b, hstore, hshows, hret⟩ := h.insert ht'
      have hne : l.fd.1 ≠ -1 := by
        have hpos := (slot_ok_iff.mp ⟨_, hs⟩ : InTable t l.fd.1).2.1
        omega
      have htest : createStep g (.slotTest l) .next = some (g, .insert l) := by
        simp only [createStep, hload]
        rfl
      have hinsert : createStep g (.insert l) .next = some (g', .ret l) := by
        simp only [createStep, hstore]
      change Leaves i p g (.slotTest l) l ((setSlot t l.fd.1 (some l)).bind fun u => .ok (l.fd.1, u))
      rw [ht']
      refine ⟨{ g' with returned := l :: g'.returned }, b, (solo_step htest).trans <|
        (solo_step hinsert).trans <| solo_step (e := .next) rfl,
        ⟨hshows.table, hshows.size, hshows.maxFd, hshows.array, hshows.steady, hshows.cells⟩, ?_⟩
      rw [if_neg hne, hret]

/-- From the size test on. -/
theorem sizeTest_leaves (h : Shows g t arr) {alloc : Alloc} (halloc : Growth.Allocated alloc)
    (hmem : ∃ a, g.arrays a = none) (hmax : t.maxFd < 2 ^ 31) (fd : ℤ × ℤ) (s : σ) :
    Leaves i p g (.sizeTest ⟨fd, 0, 0, 0, 0, 0, s⟩) ⟨fd, 0, 0, 0, 0, 0, s⟩
      (FdTable.fdElemCreate t alloc fd s) := by
  rw [Growth.fdElemCreate_of_allocated halloc]
  have hsize := h.size
  have hmaxFd := h.maxFd
  by_cases hbig : t.fdTableSize ≤ fd.1 ∨ t.fdTableSize ≤ fd.2
  · have htest : createStep g (.sizeTest ⟨fd, 0, 0, 0, 0, 0, s⟩) .next =
        some (g, .maxTest ⟨fd, 0, 0, 0, 0, 0, s⟩) := by
      rw [createStep, if_pos (by rw [← hsize]; exact hbig)]
    rw [if_pos hbig]
    refine Leaves.after ?_ (solo_step htest) rfl
    by_cases hlimit : g.maxFd < 2 * g.fdTableSize
    · have hout : createStep g (.maxTest ⟨fd, 0, 0, 0, 0, 0, s⟩) .next = some (g, .out) := by
        rw [createStep, if_pos hlimit]
      by_cases hover : t.maxFd < toInt32 (2 * t.fdTableSize)
      · rw [if_pos hover]
        exact leaves_refused h (.inr ⟨_, rfl⟩) (solo_step hout)
      -- a doubled size that is no `int` is negative, and there is no memory for it
      rw [if_neg hover]
      obtain ⟨hnone, -⟩ | ⟨t', -, -, hpos⟩ := Growth.growTable_cases h.table alloc.table
      · rw [hnone]
        exact leaves_refused h (.inl rfl) (solo_step hout)
      · have hlt := t.size_lt
        rw [toInt32_eq] at hover hpos
        split at hpos <;> omega
    · have hexact : toInt32 (2 * t.fdTableSize) = 2 * t.fdTableSize :=
        toInt32_of_range (by omega) (by omega)
      have hmalloc : createStep g (.maxTest ⟨fd, 0, 0, 0, 0, 0, s⟩) .next =
          some (g, .malloc ⟨fd, 0, 0, 0, 0, 0, s⟩) := by
        rw [createStep, if_neg hlimit]
      rw [if_neg (by omega)]
      refine Leaves.after ?_ (solo_step hmalloc) rfl
      obtain ⟨hnone, -⟩ | ⟨t', hgrow, -⟩ := Growth.growTable_cases h.table alloc.table
      · rw [hnone]
        exact leaves_refused h (.inl rfl) (solo_step (e := .malloc none) rfl)
      · obtain ⟨g', b, hshows, hret, hsolo⟩ := h.grow (i := i) (p := p) hgrow hmem
        rw [hgrow]
        exact (insertElem_leaves hshows _).after hsolo hret
  · have htest : createStep g (.sizeTest ⟨fd, 0, 0, 0, 0, 0, s⟩) .next =
        some (g, .slotTest ⟨fd, 0, 0, 0, 0, 0, s⟩) := by
      rw [createStep, if_neg (by rw [← hsize]; exact hbig)]
    rw [if_neg hbig]
    exact (insertElem_leaves h _).after (solo_step htest) rfl

/-- THE THREAD ALONE: from a table that shows the globals it returns what the function returns, and
    leaves a table that shows what the function leaves. -/
theorem fdElemCreate_leaves (h : Shows g t arr) {alloc : Alloc} (halloc : Growth.Allocated alloc)
    (hmem : ∃ a, g.arrays a = none) (hmax : t.maxFd < 2 ^ 31) {fd : ℤ × ℤ} {s : σ} (hfd : 0 ≤ fd.1)
    (hfd' : 0 ≤ fd.2) (hfresh : ∀ e ∈ g.opened, e.fd.1 ≠ fd.1 ∧ e.socket ≠ s) :
    Leaves i p g .out ⟨fd, 0, 0, 0, 0, 0, s⟩ (FdTable.fdElemCreate t alloc fd s) := by
  have hcall : createStep g .out (.call fd s) =
      some ({ g with opened := ⟨fd, 0, 0, 0, 0, 0, s⟩ :: g.opened },
        .sizeTest ⟨fd, 0, 0, 0, 0, 0, s⟩) := if_pos ⟨hfd, hfd', hfresh⟩
  have hshows : Shows { g with opened := ⟨fd, 0, 0, 0, 0, 0, s⟩ :: g.opened } t arr :=
    ⟨h.table, h.size, h.maxFd, h.array, h.steady, h.cells⟩
  exact (sizeTest_leaves hshows halloc hmem hmax fd s).after (solo_step hcall) rfl

end Thread

end FdPicotcp.Alone
