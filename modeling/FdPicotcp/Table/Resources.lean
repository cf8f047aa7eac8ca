import FdPicotcp.Lib.Transition
import FdPicotcp.Table.Growth
import FdPicotcp.Table.Ownership
import Mathlib.Data.List.Perm.Basic

/-! Who owns what the wrapper allocates?

    A descriptor is six resources: its `fd_elem`, two semaphores, the two ends of a pipe and a
    picoTCP socket. `Balanced` says that what is allocated is exactly what the table leads to.
    The calls acquire one after the other, and an error exit returns nothing of what it has by then;
    `fd_elem_delete` leaves the semaphores behind. A run is balanced throughout exactly if none of its
    steps is one of those (`Keeps`). -/

namespace FdPicotcp.Resources
open Transition FdTable Growth
open Ownership (Binding)

/-- A piece of memory, a semaphore, one end of a pipe, or a picoTCP socket. -/
inductive Resource where
  | block (a : ℕ)
  | sem (a : ℕ)
  | pipe (fd : ℤ)
  | socket (a : ℕ)
  deriving DecidableEq

/-- What an entry points to: its own block, its semaphores and its socket. -/
structure Held where
  elem : ℕ
  acceptSem : ℕ
  readSem : ℕ
  socket : ℕ
  deriving DecidableEq

/-- `waiting` has the listener of every established connection that has not been accepted. -/
structure World where
  globals : Globals Held
  allocated : List Resource
  waiting : ℕ → Option ℕ

/-- Where `malloc` puts an element and its semaphores. -/
structure Blocks where
  elem : ℕ
  acceptSem : ℕ
  readSem : ℕ
  deriving DecidableEq

/-- A call, or a new connection. -/
inductive Act where
  /-- `none` is a `pico_socket_open`, or a `pipe()`, that fails -/
  | socket (s : Option ℕ) (pipe : Option (ℤ × ℤ)) (m : Blocks) (alloc : Alloc)
  /-- `junk` is what `pipefd` holds after a `pipe()` that fails -/
  | accept (fd : ℤ) (c : Option ℕ) (pipe : Option (ℤ × ℤ)) (junk : ℤ × ℤ) (m : Blocks) (alloc : Alloc)
  | close (fd : ℤ)
  /-- the stack has a new connection for the listener `l` -/
  | establish (l c : ℕ)
  deriving DecidableEq

/-- Acquire what is not allocated yet. -/
def World.take (w : World) (rs : List Resource) : Option World :=
  if (rs ++ w.allocated).Nodup then some { w with allocated := rs ++ w.allocated } else none

/-- What `fd_elem_create` gets before it looks at the table. -/
def acquired (m : Blocks) (alloc : Alloc) : List Resource :=
  if alloc.elem then
    .block m.elem :: ((if alloc.acceptSem then [.sem m.acceptSem] else []) ++
      if alloc.readSem then [.sem m.readSem] else [])
  else []

/-- `fd_elem_create` on the heap and in the table. -/
def elemCreate (w : World) (alloc : Alloc) (m : Blocks) (fd : ℤ × ℤ) (s : ℕ) : Option World :=
  (w.take (acquired m alloc)).bind fun w =>
    match fdElemCreate w.globals alloc fd ⟨m.elem, m.acceptSem, m.readSem, s⟩ with
    | .ok (_, g) => some { w with globals := g }
    | .error _ => none

/-- `fd_pico_socket_open` -/
def fdPicoSocketOpen (w : World) (s : Option ℕ) (pipe : Option (ℤ × ℤ)) (m : Blocks)
    (alloc : Alloc) : Option World :=
  match s with
  | none => some { w with globals := w.globals.fail .socketIsNull }
  | some s =>
    if w.waiting s = none then
      (w.take [.socket s]).bind fun w =>
        match pipe with
        | none => some { w with globals := w.globals.fail .pipeNotInitialized }
        | some fd => (w.take [.pipe fd.1, .pipe fd.2]).bind fun w => elemCreate w alloc m fd s
    else none

/-- `fd_pico_socket_accept`; the result of `pipe()` is not looked at. -/
def fdPicoSocketAccept (w : World) (l : ℕ) (c : Option ℕ) (pipe : Option (ℤ × ℤ)) (junk : ℤ × ℤ)
    (m : Blocks) (alloc : Alloc) : Option World :=
  match c with
  | none => some { w with globals := w.globals.fail .socketIsNull }
  | some c =>
    if w.waiting c = some l then
      (World.take { w with waiting := Function.update w.waiting c none } [.socket c]).bind fun w =>
        match pipe with
        | none => elemCreate w alloc m junk c
        | some fd => (w.take [.pipe fd.1, .pipe fd.2]).bind fun w => elemCreate w alloc m fd c
    else none

/-- `fd_pico_socket_close`. With the library's own `close()` inside it does not come back: the entry is
    still in its slot. -/
def fdPicoSocketClose (inner : Binding) (w : World) (fd : ℤ) (e : FdElem Held) : Option World :=
  match inner with
  | .interposed => none
  | .libc =>
    match fdElemDelete w.globals fd with
    | .ok (_, g) => some { w with
      globals := g
      allocated := (((w.allocated.erase (.socket e.socket.socket)).erase (.pipe e.fd.1)).erase
        (.pipe e.fd.2)).erase (.block e.socket.elem) }
    | .error _ => none

/-- A descriptor without an entry is the kernel's. -/
def step (inner : Binding) (w : World) : Act → Option World
  | .socket s pipe m alloc => fdPicoSocketOpen w s pipe m alloc
  | .accept fd c pipe junk m alloc =>
    match slot w.globals fd with
    | .ok (some e) => fdPicoSocketAccept w e.socket.socket c pipe junk m alloc
    | .ok none => some w
    | .error _ => none
  | .close fd =>
    match slot w.globals fd with
    | .ok (some e) => fdPicoSocketClose inner w fd e
    | .ok none => some { w with allocated := w.allocated.erase (.pipe fd) }
    | .error _ => none
  | .establish l c =>
    if .socket l ∈ w.allocated ∧ .socket c ∉ w.allocated ∧ w.waiting c = none then
      some { w with waiting := Function.update w.waiting c (some l) }
    else none

/-- After `init`, in a process that may open `rlimCur` files. -/
def begin (rlimCur : ℕ) : World := ⟨init start rlimCur, [], fun _ => none⟩

/-! What the table leads to -/

/-- The six resources of a descriptor. -/
def holds (e : FdElem Held) : List Resource :=
  [.block e.socket.elem, .sem e.socket.acceptSem, .sem e.socket.readSem, .pipe e.fd.1, .pipe e.fd.2,
    .socket e.socket.socket]

/-- An empty slot holds nothing. -/
def slotHolds (o : Option (FdElem Held)) : List Resource := (o.map holds).getD []

/-- What the table leads to. -/
def reachable (g : Globals Held) : List Resource := (g.fdTable.getD []).flatMap slotHolds

/-- Every allocated resource has one owner: the entry that leads to it, and for a connection that has
    not been accepted its listener. -/
structure Balanced (w : World) : Prop where
  exact : w.allocated.Perm (reachable w.globals)
  nodup : w.allocated.Nodup
  waiting : ∀ c l, w.waiting c = some l → .socket l ∈ w.allocated ∧ .socket c ∉ w.allocated

/-- `fd_elem_create` gets all it asks for, and the table has room or can grow. -/
def Succeeds (g : Globals Held) (alloc : Alloc) (fd : ℤ × ℤ) : Prop :=
  Allocated alloc ∧ (¬ (g.fdTableSize ≤ fd.1 ∨ g.fdTableSize ≤ fd.2) ∨ Grows g alloc fd)

/-- A call that takes something gets all of it, and a `close()` is of nothing of the wrapper's. -/
def Keeps (w : World) : Act → Prop
  | .socket s pipe _ alloc => s = none ∨ ∃ fd ∈ pipe, Succeeds w.globals alloc fd
  | .accept fd c pipe _ _ alloc => ¬ Live w.globals fd ∨ c = none ∨
      ∃ fd ∈ pipe, Succeeds w.globals alloc fd
  | .close fd => ¬ Live w.globals fd ∧ .pipe fd ∉ w.allocated
  | .establish .. => True

instance (g : Globals Held) (alloc : Alloc) (fd : ℤ × ℤ) : Decidable (Succeeds g alloc fd) := by
  unfold Succeeds Grows Allocated
  infer_instance

instance (w : World) (a : Act) : Decidable (Keeps w a) := by
  unfold Keeps
  split <;> infer_instance

/-- Writing a slot exchanges what the old entry holds for what the new one holds. -/
theorem reachable_setSlot {g g' : Globals Held} {i : ℤ} {o : Option (FdElem Held)}
    (h : setSlot g i o = .ok g') :
    (slotHolds (entry g i) ++ reachable g').Perm (slotHolds o ++ reachable g) := by
  obtain ⟨-, hi⟩ := inTable_of_setSlot h
  rw [setSlot.eq_def] at h
  split at h
  · cases h
  · next l hl =>
    rw [if_pos hi, Except.ok.injEq] at h
    subst h
    have hlen := g.length_eq l hl
    have hlt : i.toNat < l.length := by omega
    have hentry : entry g i = l[i.toNat] := by
      rw [entry, slot_some hl, if_pos hi, List.getElem?_eq_getElem hlt]
      rfl
    have hnew := (List.set_perm_cons_eraseIdx hlt o).flatMap_right slotHolds
    have hold := (List.getElem_cons_eraseIdx_perm hlt).symm.flatMap_right slotHolds
    rw [List.flatMap_cons] at hnew hold
    have hg : reachable g = l.flatMap slotHolds := by
      rw [reachable, hl]
      rfl
    rw [hentry, hg]
    exact (hnew.append_left _).trans
      (List.perm_append_comm_assoc _ _ _ |>.trans (hold.symm.append_left _))

/-- The new array is there exactly if it is allocated and its size is positive. -/
theorem growTable_some {g g' : Globals Held} {ok : Bool} (h : growTable g ok = .ok (some g')) :
    ok ∧ 0 < CInt.toInt32 (2 * g.fdTableSize) := by
  rw [growTable.eq_def] at h
  simp only at h
  split at h
  · next hok => exact hok
  · cases h

theorem growTable_none {g : Globals Held} {ok : Bool} (h : growTable g ok = .ok none) :
    ¬ (ok ∧ 0 < CInt.toInt32 (2 * g.fdTableSize)) := by
  rw [growTable.eq_def] at h
  simp only at h
  split at h
  · split at h <;> cases h
  · next hno => exact hno

theorem reachable_grow {g g' : Globals Held} {ok : Bool} (h : growTable g ok = .ok (some g')) :
    reachable g' = reachable g := by
  rw [growTable.eq_def] at h
  simp only at h
  split at h
  · split at h
    · cases h
    · next l hl =>
      cases h
      have hempty : ∀ n, (List.replicate n (none : Option (FdElem Held))).flatMap slotHolds = [] := by
        intro n
        induction n with
        | zero => rfl
        | succ n ih => exact ih
      simp [reachable, hl, hempty]
  · cases h

/-- Inserting into the table: what the new entry holds, or nothing if the slot is taken. -/
theorem insertElem_reachable {g g' : Globals Held} {l : FdElem Held} {ret : ℤ}
    (h : insertElem g l = .ok (ret, g')) :
    (entry g l.fd.1 = none ∧ (reachable g').Perm (holds l ++ reachable g)) ∨
      (entry g l.fd.1 ≠ none ∧ reachable g' = reachable g) := by
  by_cases hin : InTable g l.fd.1
  · rcases insertElem_spec hin with ⟨⟨e, he⟩, hrefused⟩ | ⟨hfree, u, hstored, hset⟩
    · rw [hrefused] at h
      cases h
      exact .inr ⟨by simp [entry_eq_some.mpr he], rfl⟩
    · rw [hstored] at h
      cases h
      have hnone : entry g l.fd.1 = none := by
        rw [Option.eq_none_iff_forall_ne_some]
        exact fun e he => hfree ⟨e, entry_eq_some.mp he⟩
      have hperm := reachable_setSlot hset
      rw [hnone] at hperm
      exact .inl ⟨hnone, hperm⟩
  · obtain ⟨f, hf⟩ := insertElem_fault hin
    rw [hf] at h
    cases h

/-- CREATE: the table leads to six more resources exactly if the call gets all it asks for and the
    slot is free. -/
theorem fdElemCreate_reachable {g g' : Globals Held} {alloc : Alloc} {fd : ℤ × ℤ} {s : Held}
    {ret : ℤ} (h : fdElemCreate g alloc fd s = .ok (ret, g')) :
    (Succeeds g alloc fd ∧ entry g fd.1 = none ∧
      (reachable g').Perm (holds ⟨fd, 0, 0, 0, 0, 0, s⟩ ++ reachable g)) ∨
    (¬ (Succeeds g alloc fd ∧ entry g fd.1 = none) ∧ reachable g' = reachable g) := by
  by_cases halloc : Allocated alloc
  · rw [fdElemCreate_of_allocated halloc] at h
    by_cases hout : g.fdTableSize ≤ fd.1 ∨ g.fdTableSize ≤ fd.2
    · rw [if_pos hout] at h
      by_cases hmax : g.maxFd < CInt.toInt32 (2 * g.fdTableSize)
      · rw [if_pos hmax] at h
        cases h
        refine .inr ⟨?_, rfl⟩
        rintro ⟨⟨-, hin | hgrows⟩, -⟩
        · exact hin hout
        · exact absurd hgrows.2.2.1 (not_le.mpr hmax)
      · rw [if_neg hmax] at h
        cases hgrow : growTable g alloc.table with
        | error f => rw [hgrow] at h; cases h
        | ok o =>
          rw [hgrow] at h
          cases o with
          | none =>
            cases h
            refine .inr ⟨?_, rfl⟩
            rintro ⟨⟨-, hin | hgrows⟩, -⟩
            · exact hin hout
            · exact growTable_none hgrow hgrows.2.2.2
          | some u =>
            change insertElem u ⟨fd, 0, 0, 0, 0, 0, s⟩ = .ok (ret, g') at h
            have hsucceeds : Succeeds g alloc fd :=
              ⟨halloc, .inr ⟨halloc, hout, not_lt.mp hmax, growTable_some hgrow⟩⟩
            have hins := insertElem_reachable h
            rw [reachable_grow hgrow] at hins
            simp only [growTable_entry hgrow] at hins
            rcases hins with ⟨hfree, hperm⟩ | ⟨htaken, hsame⟩
            · exact .inl ⟨hsucceeds, hfree, hperm⟩
            · exact .inr ⟨fun hboth => htaken hboth.2, hsame⟩
    · rw [if_neg hout] at h
      rcases insertElem_reachable h with ⟨hfree, hperm⟩ | ⟨htaken, hsame⟩
      · exact .inl ⟨⟨halloc, .inl hout⟩, hfree, hperm⟩
      · exact .inr ⟨fun hboth => htaken hboth.2, hsame⟩
  · refine .inr ⟨fun hboth => halloc hboth.1.1, ?_⟩
    rw [reachable, (fdElemCreate_of_not_allocated halloc h).2, reachable]

/-! One step -/

theorem mem_reachable {g : Globals Held} {i : ℤ} {e : FdElem Held} (h : entry g i = some e)
    {r : Resource} (hr : r ∈ holds e) : r ∈ reachable g := by
  rw [entry_eq_some] at h
  obtain ⟨hsome, hi⟩ := slot_ok_iff.mp ⟨_, h⟩
  obtain ⟨l, hl⟩ := Option.isSome_iff_exists.mp hsome
  rw [slot_some hl, if_pos hi, Except.ok.injEq, Option.join_eq_some_iff] at h
  rw [reachable, hl]
  exact List.mem_flatMap.mpr ⟨some e, List.mem_of_getElem? h, hr⟩

theorem take_eq_some {w w' : World} {rs : List Resource} (h : w.take rs = some w') :
    (rs ++ w.allocated).Nodup ∧ w' = { w with allocated := rs ++ w.allocated } := by
  rw [World.take, Option.ite_none_right_eq_some, Option.some.injEq] at h
  exact ⟨h.1, h.2.symm⟩

theorem acquired_length (m : Blocks) (alloc : Alloc) : (acquired m alloc).length ≤ 3 := by
  rw [acquired]
  split
  · split <;> split <;> simp
  · simp

/-- What `fd_elem_create` does to the heap, the table and the children that wait. -/
structure Elem (w w' : World) (alloc : Alloc) (m : Blocks) (fd : ℤ × ℤ) (s : ℕ) : Prop where
  nodup : w'.allocated.Nodup
  allocated : w'.allocated = acquired m alloc ++ w.allocated
  waiting : w'.waiting = w.waiting
  keyed : Keyed w.globals → Keyed w'.globals
  reachable : (Succeeds w.globals alloc fd ∧ entry w.globals fd.1 = none ∧
      (reachable w'.globals).Perm
        (holds ⟨fd, 0, 0, 0, 0, 0, ⟨m.elem, m.acceptSem, m.readSem, s⟩⟩ ++ reachable w.globals)) ∨
    (¬ (Succeeds w.globals alloc fd ∧ entry w.globals fd.1 = none) ∧
      Resources.reachable w'.globals = Resources.reachable w.globals)

theorem elemCreate_spec {w w' : World} {alloc : Alloc} {m : Blocks} {fd : ℤ × ℤ} {s : ℕ}
    (h : elemCreate w alloc m fd s = some w') : Elem w w' alloc m fd s := by
  simp only [elemCreate, Option.bind_eq_some_iff] at h
  obtain ⟨u, htake, h⟩ := h
  obtain ⟨hnodup, rfl⟩ := take_eq_some htake
  simp only at h
  split at h
  · next hcreate =>
    cases h
    exact ⟨hnodup, rfl, rfl, fun hk => hk.create hcreate, fdElemCreate_reachable hcreate⟩
  · cases h

/-- STEP, the end of `socket()` and `accept()` when both have their pipe. -/
theorem Balanced.create_iff {w u w' : World} {alloc : Alloc} {m : Blocks} {fd : ℤ × ℤ} {s : ℕ}
    (hc : elemCreate u alloc m fd s = some w') (h : Balanced w) (hk : Keyed w.globals)
    (hg : u.globals = w.globals)
    (ha : u.allocated = .pipe fd.1 :: .pipe fd.2 :: .socket s :: w.allocated)
    (hw : ∀ c l, u.waiting c = some l → w.waiting c = some l ∧ c ≠ s) :
    Balanced w' ↔ Succeeds w.globals alloc fd := by
  have hel := elemCreate_spec hc
  have hlen := h.exact.length_eq
  have hreach := hel.reachable
  rw [hg] at hreach
  constructor
  · intro hb
    rcases hreach with ⟨hsucceeds, -⟩ | ⟨-, hsame⟩
    · exact hsucceeds
    · -- at least three resources more, and the table leads to no new one
      have hlen' := hb.exact.length_eq
      rw [hel.allocated, ha, hsame, List.length_append] at hlen'
      simp only [List.length_cons] at hlen'
      omega
  · intro hsucceeds
    have hnodup := hel.nodup
    rw [hel.allocated, ha] at hnodup
    have hfree : entry w.globals fd.1 = none := by
      rw [Option.eq_none_iff_forall_ne_some]
      intro e he
      have hmem : Resource.pipe fd.1 ∈ w.allocated :=
        h.exact.mem_iff.mpr (mem_reachable he (by simp [holds, hk _ e he]))
      have hnot := (List.nodup_cons.mp (List.nodup_append.mp hnodup).2.1).1
      exact hnot (by simp [hmem])
    rcases hreach with ⟨-, -, hperm⟩ | ⟨hno, -⟩
    · obtain ⟨helem, ⟨hacc, hread⟩, -⟩ := hsucceeds.1
      have hall : w'.allocated =
          holds ⟨fd, 0, 0, 0, 0, 0, ⟨m.elem, m.acceptSem, m.readSem, s⟩⟩ ++ w.allocated := by
        rw [hel.allocated, ha, acquired, if_pos helem, if_pos hacc, if_pos hread]
        rfl
      refine ⟨?_, hel.nodup, ?_⟩
      · rw [hall]
        exact (h.exact.append_left _).trans hperm.symm
      · intro c l hcl
        rw [hel.waiting] at hcl
        obtain ⟨hold, hne⟩ := hw c l hcl
        obtain ⟨hl, hc⟩ := h.waiting c l hold
        rw [hall]
        exact ⟨List.mem_append_right _ hl, by simp [holds, hc, hne]⟩
    · exact absurd ⟨hsucceeds, hfree⟩ hno

theorem balanced_fail {w : World} (h : Balanced w) (e : FdErr) :
    Balanced { w with globals := w.globals.fail e } :=
  ⟨h.exact, h.nodup, h.waiting⟩

/-- STEP, `socket()`. -/
theorem Balanced.open_iff {w w' : World} {s : Option ℕ} {pipe : Option (ℤ × ℤ)} {m : Blocks}
    {alloc : Alloc} (h : Balanced w) (hk : Keyed w.globals)
    (hs : fdPicoSocketOpen w s pipe m alloc = some w') :
    Keyed w'.globals ∧ (Balanced w' ↔
      (s = none ∨ ∃ fd ∈ pipe, Succeeds w.globals alloc fd)) := by
  cases s with
  | none =>
    cases hs
    exact ⟨hk, iff_of_true (balanced_fail h _) (.inl rfl)⟩
  | some s =>
    simp only [fdPicoSocketOpen, Option.ite_none_right_eq_some, Option.bind_eq_some_iff] at hs
    obtain ⟨hfresh, u, htake, hs⟩ := hs
    obtain ⟨-, rfl⟩ := take_eq_some htake
    cases pipe with
    | none =>
      cases hs
      refine ⟨hk, iff_of_false ?_ (by simp)⟩
      intro hb
      have hlen := h.exact.length_eq
      have hlen' : w.allocated.length + 1 = (reachable w.globals).length := hb.exact.length_eq
      omega
    | some fd =>
      simp only [Option.bind_eq_some_iff] at hs
      obtain ⟨v, htake, hs⟩ := hs
      obtain ⟨-, rfl⟩ := take_eq_some htake
      refine ⟨(elemCreate_spec hs).keyed hk, ?_⟩
      rw [h.create_iff hs hk rfl rfl ?_]
      · simp
      · intro c l hcl
        refine ⟨hcl, ?_⟩
        rintro rfl
        rw [show w.waiting c = some l from hcl] at hfresh
        cases hfresh

/-- STEP, `accept()`. -/
theorem Balanced.accept_iff {w w' : World} {l : ℕ} {c : Option ℕ} {pipe : Option (ℤ × ℤ)}
    {junk : ℤ × ℤ} {m : Blocks} {alloc : Alloc} (h : Balanced w) (hk : Keyed w.globals)
    (hs : fdPicoSocketAccept w l c pipe junk m alloc = some w') :
    Keyed w'.globals ∧ (Balanced w' ↔
      (c = none ∨ ∃ fd ∈ pipe, Succeeds w.globals alloc fd)) := by
  cases c with
  | none =>
    cases hs
    exact ⟨hk, iff_of_true (balanced_fail h _) (.inl rfl)⟩
  | some c =>
    simp only [fdPicoSocketAccept, Option.ite_none_right_eq_some, Option.bind_eq_some_iff] at hs
    obtain ⟨-, u, htake, hs⟩ := hs
    obtain ⟨-, rfl⟩ := take_eq_some htake
    cases pipe with
    | none =>
      have hel := elemCreate_spec hs
      refine ⟨hel.keyed hk, iff_of_false ?_ (by simp)⟩
      -- one to four resources more, and the table leads to none or six more
      intro hb
      have hlen := h.exact.length_eq
      have hlen' := hb.exact.length_eq
      have hacq := acquired_length m alloc
      rw [hel.allocated] at hlen'
      rcases hel.reachable with ⟨-, -, hperm⟩ | ⟨-, hsame⟩
      · rw [hperm.length_eq] at hlen'
        simp only [holds, List.length_append, List.length_cons, List.length_nil] at hlen'
        omega
      · rw [hsame] at hlen'
        simp only [List.length_append, List.length_cons, List.length_nil] at hlen'
        omega
    | some fd =>
      simp only [Option.bind_eq_some_iff] at hs
      obtain ⟨v, htake, hs⟩ := hs
      obtain ⟨-, rfl⟩ := take_eq_some htake
      refine ⟨(elemCreate_spec hs).keyed hk, ?_⟩
      rw [h.create_iff hs hk rfl rfl ?_]
      · simp
      · intro d l' hd
        change Function.update w.waiting c none d = some l' at hd
        by_cases hdc : d = c
        · rw [hdc, Function.update_self] at hd
          cases hd
        · rw [Function.update_of_ne hdc] at hd
          exact ⟨hd, hdc⟩

/-- DELETE: the table leads to six resources less. -/
theorem fdElemDelete_reachable {g g' : Globals Held} {fd ret : ℤ} {e : FdElem Held}
    (he : entry g fd = some e) (h : fdElemDelete g fd = .ok (ret, g')) :
    (reachable g).Perm (holds e ++ reachable g') := by
  rw [fdElemDelete, entry_eq_some.mp he] at h
  cases hset : setSlot g fd none with
  | error f =>
    change (setSlot g fd none >>= fun g => .ok (0, g)) = .ok (ret, g') at h
    rw [hset] at h
    cases h
  | ok u =>
    change (setSlot g fd none >>= fun g => .ok (0, g)) = .ok (ret, g') at h
    rw [hset] at h
    cases h
    have hperm := reachable_setSlot hset
    rw [he] at hperm
    exact hperm.symm

/-- `fd_elem_delete` gives back four resources at most. -/
theorem freed_length (rs : List Resource) (e : FdElem Held) :
    rs.length ≤ ((((rs.erase (.socket e.socket.socket)).erase (.pipe e.fd.1)).erase
      (.pipe e.fd.2)).erase (.block e.socket.elem)).length + 4 := by
  have h₁ := List.le_length_erase (a := Resource.socket e.socket.socket) (l := rs)
  have h₂ := List.le_length_erase (a := Resource.pipe e.fd.1)
    (l := rs.erase (.socket e.socket.socket))
  have h₃ := List.le_length_erase (a := Resource.pipe e.fd.2)
    (l := (rs.erase (.socket e.socket.socket)).erase (.pipe e.fd.1))
  have h₄ := List.le_length_erase (a := Resource.block e.socket.elem)
    (l := ((rs.erase (.socket e.socket.socket)).erase (.pipe e.fd.1)).erase (.pipe e.fd.2))
  omega

/-- STEP, `close()`: the semaphores stay allocated. -/
theorem Balanced.close_iff {inner : Binding} {w w' : World} {fd : ℤ} (h : Balanced w)
    (hk : Keyed w.globals) (hs : step inner w (.close fd) = some w') :
    Keyed w'.globals ∧ (Balanced w' ↔ ¬ Live w.globals fd ∧ .pipe fd ∉ w.allocated) := by
  have hlen := h.exact.length_eq
  simp only [step] at hs
  split at hs
  · next e he =>
    cases inner with
    | interposed => cases hs
    | libc =>
      simp only [fdPicoSocketClose] at hs
      split at hs
      · next ret g hdel =>
        cases hs
        refine ⟨hk.delete hdel, iff_of_false ?_ fun hno => hno.1 ⟨e, he⟩⟩
        intro hb
        -- four resources less, and the table leads to six less
        have hlen' := hb.exact.length_eq
        have hgone := (fdElemDelete_reachable (entry_eq_some.mpr he) hdel).length_eq
        have hleft := freed_length w.allocated e
        simp only [holds, List.length_append, List.length_cons, List.length_nil] at hgone
        simp only at hlen'
        omega
      · cases hs
  · next hnone =>
    cases hs
    refine ⟨hk, ?_⟩
    have hdead : ¬ Live w.globals fd := by
      rintro ⟨e, he⟩
      rw [hnone] at he
      cases he
    rw [and_iff_right hdead]
    constructor
    · intro hb hmem
      have hlen' := hb.exact.length_eq
      have hpos := List.length_pos_of_mem hmem
      simp only [List.length_erase_of_mem hmem] at hlen'
      omega
    · intro hno
      rw [List.erase_of_not_mem hno]
      exact h
  · cases hs

theorem balanced_step {inner : Binding} {w w' : World} {a : Act} (hk : Keyed w.globals)
    (h : Balanced w) (hs : step inner w a = some w') :
    Keyed w'.globals ∧ (Balanced w' ↔ Keeps w a) := by
  cases a with
  | socket s pipe m alloc => exact h.open_iff hk hs
  | accept fd c pipe junk m alloc =>
    simp only [step] at hs
    split at hs
    · next e he =>
      obtain ⟨hk', hiff⟩ := h.accept_iff hk hs
      refine ⟨hk', hiff.trans ?_⟩
      rw [Keeps, or_iff_right (not_not.mpr ⟨e, he⟩)]
    · next hnone =>
      cases hs
      refine ⟨hk, iff_of_true h (.inl ?_)⟩
      rintro ⟨e, he⟩
      rw [hnone] at he
      cases he
    · cases hs
  | close fd => exact h.close_iff hk hs
  | establish l c =>
    simp only [step, Option.ite_none_right_eq_some, Option.some.injEq] at hs
    obtain ⟨⟨hl, hc, -⟩, rfl⟩ := hs
    refine ⟨hk, iff_of_true ⟨h.exact, h.nodup, ?_⟩ trivial⟩
    intro d l' hd
    change Function.update w.waiting c (some l) d = some l' at hd
    by_cases hdc : d = c
    · rw [hdc, Function.update_self, Option.some.injEq] at hd
      rw [← hd, hdc]
      exact ⟨hl, hc⟩
    · rw [Function.update_of_ne hdc] at hd
      exact h.waiting d l' hd

theorem balanced_begin (rlimCur : ℕ) : Balanced (begin rlimCur) := by
  refine ⟨?_, List.nodup_nil, ?_⟩
  · rw [show reachable (begin rlimCur).globals = [] from rfl]
    exact List.Perm.nil
  · rintro c l ⟨⟩

theorem keyed_begin (rlimCur : ℕ) : Keyed (begin rlimCur).globals := by
  intro i e he
  rw [show entry (begin rlimCur).globals i = none from init_entry start rlimCur i] at he
  cases he

/-- EVERY RESOURCE HAS ONE OWNER in every state of a run exactly if each call that takes something
    gets all of it, and nothing is closed. -/
theorem balanced_iff {inner : Binding} {rlimCur : ℕ} {as : List Act} {w : World}
    (hr : run (step inner) (begin rlimCur) as = some w) :
    Everywhere (step inner) Balanced (begin rlimCur) as ↔
      Meets (step inner) Keeps (begin rlimCur) as := by
  have hstep : ∀ w act w', Keyed w.globals → Balanced w → step inner w act = some w' →
      Keyed w'.globals ∧ (Balanced w' ↔ Keeps w act) :=
    fun _ _ _ hk hb hs => balanced_step hk hb hs
  exact everywhere_iff_meets hstep (keyed_begin rlimCur) (balanced_begin rlimCur) hr

/-- A listener, and a connection that is accepted. -/
def openTwo : List Act :=
  [.socket (some 50) (some (3, 4)) ⟨1, 2, 3⟩ .all, .establish 50 60,
    .accept 3 (some 60) (some (5, 6)) (0, 0) ⟨11, 12, 13⟩ .all]

theorem openTwo_runs : (run (step .libc) (begin 1024) openTwo).isSome := by decide +kernel

theorem balanced_openTwo : Everywhere (step .libc) Balanced (begin 1024) openTwo :=
  (balanced_iff (Option.some_get openTwo_runs).symm).mpr (by decide +kernel)

/-- A `socket()` whose `pipe()` fails: it returns -1, and the picoTCP socket stays. -/
def pipeFails : List Act := [.socket (some 50) none ⟨1, 2, 3⟩ .all]

theorem socket_left : ¬ ∀ (as : List Act) (w : World),
    run (step .libc) (begin 1024) as = some w → Balanced w := by
  intro h
  have hbalanced := h pipeFails ⟨(begin 1024).globals.fail .pipeNotInitialized, [.socket 50],
    fun _ => none⟩ (by rfl)
  have hlen := hbalanced.exact.length_eq
  cases hlen

end FdPicotcp.Resources
