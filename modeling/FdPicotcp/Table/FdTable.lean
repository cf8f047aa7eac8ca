import Mathlib.Data.List.Basic
import FdPicotcp.Lib.CInt

/-! The descriptor table (`fd_picotcp.c`): an array of entries indexed by file descriptor.

    `FD_TABLE_SIZE`, `MAX_FD`, `fd_table` and `fd_err` are the globals every function of the wrapper
    works on. That the array has `FD_TABLE_SIZE` slots is a field, so no state without it can be
    built; an access outside the array, or through `fd_table` before `init` has allocated it, is a
    `Fault`. -/

namespace FdPicotcp.FdTable
open CInt

/-- The values of `fd_err`. -/
inductive FdErr where
  | ok | socketNotFound | socketIsNull | elemNotAllocated | semNotAllocated | tableWriteOnNotNull
  | tableMaxSizeReached | invalidAddress | invalidNetmask | pipeNotInitialized | interfaceNotLinked
  | tableInsertError | threadError
  deriving DecidableEq, Repr

variable {σ : Type}

/-- `fd_elem`; `fd` are the two ends of its pipe, `σ` the addresses of picoTCP sockets. -/
structure FdElem (σ : Type) where
  fd : ℤ × ℤ
  fdWriteCount : ℤ
  fdCharCount : ℤ
  isIpv6 : ℤ
  acceptSem : ℕ
  readSem : ℕ
  socket : σ
  deriving DecidableEq

/-- The globals; `fdTable` is `none` while `fd_table` is `NULL`. -/
structure Globals (σ : Type) where
  fdTableSize : ℤ
  maxFd : ℤ
  fdTable : Option (List (Option (FdElem σ)))
  fdErr : FdErr
  size_pos : 0 < fdTableSize
  size_lt : fdTableSize < 2 ^ 31
  length_eq : ∀ l ∈ fdTable, (l.length : ℤ) = fdTableSize
  deriving DecidableEq

/-- What an access outside the table is. -/
inductive Fault where
  | nullTable
  | outOfRange (i : ℤ)
  deriving DecidableEq

/-- Before the first `socket()`. -/
def start : Globals σ := ⟨8, 0, none, .ok, by decide, by decide, by simp⟩

/-- The table part of `init`, with `RLIMIT_NOFILE`. -/
def init (g : Globals σ) (rlimCur : ℕ) : Globals σ :=
  { g with
    maxFd := toInt32 rlimCur
    fdTable := some (List.replicate g.fdTableSize.toNat none)
    length_eq := by simp [g.size_pos.le] }

/-- After `init` in a process that may open 1024 files. -/
def initial : Globals ℕ := init start 1024

/-- `fd_err = e` -/
def Globals.fail (g : Globals σ) (e : FdErr) : Globals σ := { g with fdErr := e }

/-- `fd_table[i]` -/
def slot (g : Globals σ) (i : ℤ) : Except Fault (Option (FdElem σ)) :=
  match g.fdTable with
  | none => .error .nullTable
  | some l => if 0 ≤ i ∧ i < g.fdTableSize then .ok l[i.toNat]?.join else .error (.outOfRange i)

/-- `fd_table[i] = e` -/
def setSlot (g : Globals σ) (i : ℤ) (e : Option (FdElem σ)) : Except Fault (Globals σ) :=
  match h : g.fdTable with
  | none => .error .nullTable
  | some l =>
    if 0 ≤ i ∧ i < g.fdTableSize then
      .ok { g with
        fdTable := some (l.set i.toNat e)
        length_eq := by simpa using g.length_eq l h }
    else .error (.outOfRange i)

/-- `get_socket_from_fd` -/
def getSocketFromFd (g : Globals σ) (fd : ℤ) : Except Fault (Option σ) :=
  (slot g fd).map (Option.map (·.socket))

/-- The first entry that holds the socket, with its place. -/
def getFdElemFromSocket [DecidableEq σ] (g : Globals σ) (s : σ) :
    Except Fault (Option (ℕ × FdElem σ)) :=
  match g.fdTable with
  | none => .error .nullTable
  | some l => .ok <| (l.zipIdx.find? fun (e, _) => e.any (·.socket = s)).bind fun (e, i) =>
    e.map fun e => (i, e)

/-- Which of its allocations `fd_elem_create` gets. -/
structure Alloc where
  elem : Bool
  acceptSem : Bool
  readSem : Bool
  initAccept : Bool
  initRead : Bool
  table : Bool
  deriving DecidableEq

/-- There is memory for everything. -/
def Alloc.all : Alloc := ⟨true, true, true, true, true, true⟩

/-- The new array: the old slots and as many empty ones. The size is an `int`, and an allocation of
    a negative number of bytes fails like any that is too large. -/
def growTable (g : Globals σ) (ok : Bool) : Except Fault (Option (Globals σ)) :=
  let size := toInt32 (2 * g.fdTableSize)
  if h : ok ∧ 0 < size then
    match ht : g.fdTable with
    | none => .error .nullTable
    | some l => .ok <| some { g with
      fdTableSize := size
      fdTable := some (l ++ List.replicate (size - g.fdTableSize).toNat none)
      size_pos := h.2
      size_lt := (toInt32_range _).2
      length_eq := by
        have hl := g.length_eq l ht
        have hp := g.size_pos
        have hlt := g.size_lt
        have hs : 0 < toInt32 (2 * g.fdTableSize) := h.2
        rw [toInt32_eq] at hs
        simp only [Option.mem_def, Option.some.injEq, size, toInt32_eq]
        rintro _ rfl
        rw [List.length_append, List.length_replicate]
        split at hs <;> split <;> omega }
  else .ok none

/-- The end of `fd_elem_create`: an occupied slot is refused. -/
def insertElem (g : Globals σ) (l : FdElem σ) : Except Fault (ℤ × Globals σ) := do
  match ← slot g l.fd.1 with
  | some _ => .ok (-1, g.fail .tableWriteOnNotNull)
  | none =>
    let g ← setSlot g l.fd.1 (some l)
    .ok (l.fd.1, g)

/-- `fd_elem_create`: the element and its semaphores, a larger table if need be, the slot. -/
def fdElemCreate (g : Globals σ) (alloc : Alloc) (fd : ℤ × ℤ) (s : σ) :
    Except Fault (ℤ × Globals σ) :=
  if ¬ alloc.elem then .ok (-1, g.fail .elemNotAllocated)
  else if ¬ alloc.acceptSem ∨ ¬ alloc.readSem then .ok (-1, g.fail .semNotAllocated)
  else if ¬ alloc.initAccept ∨ ¬ alloc.initRead then .ok (-1, g)
  else
    let l : FdElem σ := ⟨fd, 0, 0, 0, 0, 0, s⟩
    if g.fdTableSize ≤ fd.1 ∨ g.fdTableSize ≤ fd.2 then
      if g.maxFd < toInt32 (2 * g.fdTableSize) then .ok (-1, g.fail .tableMaxSizeReached)
      else do
        match ← growTable g alloc.table with
        | none => .ok (-1, g)
        | some g => insertElem g l
    else insertElem g l

/-- The table part of `fd_elem_delete`, once the pipe is closed. -/
def fdElemDelete (g : Globals σ) (fd : ℤ) : Except Fault (ℤ × Globals σ) := do
  match ← slot g fd with
  | some _ =>
    let g ← setSlot g fd none
    .ok (0, g)
  | none => .ok (-1, g)

/-- The descriptor is the key of an entry. -/
def Live (g : Globals σ) (fd : ℤ) : Prop := ∃ e, slot g fd = .ok (some e)

/-- The table as a map: the entry at a descriptor. -/
def entry (g : Globals σ) (i : ℤ) : Option (FdElem σ) := (slot g i).toOption.join

/-- Inside the array. -/
def InTable (g : Globals σ) (i : ℤ) : Prop := g.fdTable.isSome ∧ 0 ≤ i ∧ i < g.fdTableSize

instance (g : Globals σ) (i : ℤ) : Decidable (InTable g i) := inferInstanceAs (Decidable (_ ∧ _))

instance (g : Globals σ) (fd : ℤ) : Decidable (Live g fd) :=
  match h : slot g fd with
  | .error _ => isFalse fun ⟨_, he⟩ => by rw [h] at he; cases he
  | .ok none => isFalse fun ⟨_, he⟩ => by rw [h] at he; cases he
  | .ok (some e) => isTrue ⟨e, h⟩

theorem slot_some {g : Globals σ} {l : List (Option (FdElem σ))} (h : g.fdTable = some l) (i : ℤ) :
    slot g i =
      if 0 ≤ i ∧ i < g.fdTableSize then .ok l[i.toNat]?.join else .error (.outOfRange i) := by
  simp only [slot, h]

/-- A slot can be read exactly when it is inside the array. -/
theorem slot_ok_iff {g : Globals σ} {i : ℤ} : (∃ e, slot g i = .ok e) ↔ InTable g i := by
  rw [slot, InTable]
  cases ht : g.fdTable with
  | none => simp
  | some l => by_cases hi : 0 ≤ i ∧ i < g.fdTableSize <;> simp [hi]

theorem slot_of_inTable {g : Globals σ} {i : ℤ} (h : InTable g i) : ∃ e, slot g i = .ok e :=
  slot_ok_iff.mpr h

/-- An empty slot inside the array reads `NULL`. -/
theorem slot_of_not_live {g : Globals σ} {i : ℤ} (h : InTable g i) (hl : ¬ Live g i) :
    slot g i = .ok none := by
  obtain ⟨e, he⟩ := slot_of_inTable h
  cases e with
  | none => exact he
  | some e => exact absurd ⟨e, he⟩ hl

/-- Writing a slot: the result and what it leaves alone. -/
theorem setSlot_spec {g : Globals σ} {i : ℤ} (h : InTable g i) (e : Option (FdElem σ)) :
    ∃ g', setSlot g i e = .ok g' ∧ g'.fdTableSize = g.fdTableSize ∧ g'.maxFd = g.maxFd ∧
      slot g' i = .ok e ∧ ∀ j, j ≠ i → slot g' j = slot g j := by
  obtain ⟨ht, hi⟩ := h
  rw [setSlot.eq_def]
  split
  · next hnone => rw [hnone] at ht; cases ht
  · next l hl =>
    have hlen := g.length_eq l hl
    rw [if_pos hi]
    refine ⟨_, rfl, rfl, rfl, ?_, ?_⟩
    · rw [slot_some rfl, if_pos hi, List.getElem?_set_self (by omega)]
      rfl
    · intro j hj
      rw [slot_some rfl, slot_some hl]
      by_cases hjr : 0 ≤ j ∧ j < g.fdTableSize
      · rw [if_pos hjr, if_pos hjr, List.getElem?_set_ne (by omega)]
      · rw [if_neg hjr, if_neg hjr]

/-- A growth doubles the size and keeps every slot; the new ones are empty. -/
theorem growTable_spec {g g' : Globals σ} {ok : Bool} (h : growTable g ok = .ok (some g')) :
    g'.fdTableSize = 2 * g.fdTableSize ∧ g'.fdTable.isSome ∧ g'.maxFd = g.maxFd ∧
      (∀ i, i < g.fdTableSize → slot g' i = slot g i) ∧
      ∀ i, g.fdTableSize ≤ i → i < 2 * g.fdTableSize → slot g' i = .ok none := by
  rw [growTable.eq_def] at h
  simp only at h
  split at h
  · next hok =>
    split at h
    · cases h
    · next l hl =>
      simp only [Except.ok.injEq, Option.some.injEq] at h
      subst h
      have hlen := g.length_eq l hl
      have hp := g.size_pos
      have hsize : toInt32 (2 * g.fdTableSize) = 2 * g.fdTableSize := by
        have hlt := g.size_lt
        have hpos := hok.2
        rw [toInt32_eq] at hpos ⊢
        split at hpos <;> split <;> omega
      refine ⟨hsize, rfl, rfl, ?_, ?_⟩
      · intro i hi
        rw [slot_some rfl, slot_some hl]
        simp only [hsize]
        by_cases hi0 : 0 ≤ i
        · rw [if_pos ⟨hi0, by omega⟩, if_pos ⟨hi0, hi⟩, List.getElem?_append_left (by omega)]
        · rw [if_neg (by omega), if_neg (by omega)]
      · intro i lo hi
        rw [slot_some rfl]
        simp only [hsize]
        rw [if_pos (by omega), List.getElem?_append_right (by omega), List.getElem?_replicate]
        split <;> rfl
  · cases h

/-- Inserting into an empty slot stores the entry; an occupied slot is refused. -/
theorem insertElem_spec {g : Globals σ} {l : FdElem σ} (h : InTable g l.fd.1) :
    (Live g l.fd.1 ∧ insertElem g l = .ok (-1, g.fail .tableWriteOnNotNull)) ∨
      (¬ Live g l.fd.1 ∧
        ∃ g', insertElem g l = .ok (l.fd.1, g') ∧ setSlot g l.fd.1 (some l) = .ok g') := by
  obtain ⟨e, he⟩ := slot_of_inTable h
  cases e with
  | some e =>
    refine .inl ⟨⟨e, he⟩, ?_⟩
    simp [insertElem, he, bind, Except.bind]
  | none =>
    obtain ⟨g', hg', -⟩ := setSlot_spec h (some l)
    have hno : ¬ Live g l.fd.1 := by
      rintro ⟨e, hl⟩
      rw [he] at hl
      cases hl
    refine .inr ⟨hno, g', ?_, hg'⟩
    simp [insertElem, he, hg', bind, Except.bind]

/-- Outside the array an insertion is a fault. -/
theorem insertElem_fault {g : Globals σ} {l : FdElem σ} (h : ¬ InTable g l.fd.1) :
    ∃ f, insertElem g l = .error f := by
  cases hs : slot g l.fd.1 with
  | error f => exact ⟨f, by simp [insertElem, hs, bind, Except.bind]⟩
  | ok e => exact absurd (slot_ok_iff.mp ⟨e, hs⟩) h

theorem entry_eq_some {g : Globals σ} {i : ℤ} {e : FdElem σ} :
    entry g i = some e ↔ slot g i = .ok (some e) := by
  rw [entry]
  cases hs : slot g i with
  | error f => simp [Except.toOption]
  | ok o => simp [Except.toOption]

theorem entry_of_not_inTable {g : Globals σ} {i : ℤ} (h : ¬ InTable g i) : entry g i = none := by
  rw [Option.eq_none_iff_forall_ne_some]
  exact fun e he => h (slot_ok_iff.mp ⟨_, entry_eq_some.mp he⟩)

/-- The array of `init` has no entry. -/
theorem init_entry (g : Globals σ) (rlimCur : ℕ) (i : ℤ) : entry (init g rlimCur) i = none := by
  rw [entry, slot_some (l := List.replicate g.fdTableSize.toNat none) rfl]
  split
  · rw [List.getElem?_replicate]
    split <;> rfl
  · rfl

theorem inTable_of_setSlot {g g' : Globals σ} {i : ℤ} {e : Option (FdElem σ)}
    (h : setSlot g i e = .ok g') : InTable g i := by
  rw [setSlot.eq_def] at h
  split at h
  · cases h
  · next l hl =>
    split at h
    · next hi => exact ⟨by rw [hl]; rfl, hi⟩
    · cases h

/-- Writing a slot updates the map at one key. -/
theorem setSlot_entry {g g' : Globals σ} {i : ℤ} {e : Option (FdElem σ)}
    (h : setSlot g i e = .ok g') : entry g' i = e ∧ ∀ j, j ≠ i → entry g' j = entry g j := by
  obtain ⟨u, hu, -, -, hself, hother⟩ := setSlot_spec (inTable_of_setSlot h) e
  rw [h, Except.ok.injEq] at hu
  subst hu
  exact ⟨by rw [entry, hself]; rfl, fun j hj => by rw [entry, entry, hother j hj]⟩

theorem setSlot_allocated {g g' : Globals σ} {i : ℤ} {e : Option (FdElem σ)}
    (h : setSlot g i e = .ok g') : g'.fdTable.isSome := by
  obtain ⟨u, hu, -, -, hself, -⟩ := setSlot_spec (inTable_of_setSlot h) e
  rw [h, Except.ok.injEq] at hu
  subst hu
  exact (slot_ok_iff.mp ⟨_, hself⟩).1

/-- A growth does not change the map. -/
theorem growTable_entry {g g' : Globals σ} {ok : Bool} (h : growTable g ok = .ok (some g')) (i : ℤ) :
    entry g' i = entry g i := by
  obtain ⟨hsize, -, -, hold, hnew⟩ := growTable_spec h
  rcases lt_or_ge i g.fdTableSize with hlt | hge
  · rw [entry, entry, hold i hlt]
  · rw [entry_of_not_inTable (g := g) fun hin => absurd hin.2.2 (not_lt.mpr hge)]
    rcases lt_or_ge i (2 * g.fdTableSize) with hlt' | hge'
    · rw [entry, hnew i hge hlt']
      rfl
    · exact entry_of_not_inTable fun hin => absurd hin.2.2 (by omega)

/-- What a call that inserts may do to the map: nothing, or one new key with an entry for `s`. -/
def Inserts (g g' : Globals σ) (fd : ℤ × ℤ) (s : σ) : Prop :=
  (∀ i, entry g' i = entry g i) ∨
    (entry g fd.1 = none ∧ entry g' fd.1 = some ⟨fd, 0, 0, 0, 0, 0, s⟩ ∧
      ∀ i, i ≠ fd.1 → entry g' i = entry g i)

/-- The same with the return value: -1 and nothing, or the new key. An allocated table stays. -/
structure Created (g g' : Globals σ) (fd : ℤ × ℤ) (s : σ) (ret : ℤ) : Prop where
  map : (ret = -1 ∧ ∀ i, entry g' i = entry g i) ∨
    (ret = fd.1 ∧ entry g fd.1 = none ∧ entry g' fd.1 = some ⟨fd, 0, 0, 0, 0, 0, s⟩ ∧
      ∀ i, i ≠ fd.1 → entry g' i = entry g i)
  allocated : g.fdTable.isSome → g'.fdTable.isSome

theorem Created.inserts {g g' : Globals σ} {fd : ℤ × ℤ} {s : σ} {ret : ℤ}
    (h : Created g g' fd s ret) : Inserts g g' fd s := h.map.imp And.right And.right

theorem insertElem_created {g g' : Globals σ} {fd : ℤ × ℤ} {s : σ} {ret : ℤ}
    (h : insertElem g ⟨fd, 0, 0, 0, 0, 0, s⟩ = .ok (ret, g')) : Created g g' fd s ret := by
  by_cases hin : InTable g fd.1
  · rcases insertElem_spec (l := ⟨fd, 0, 0, 0, 0, 0, s⟩) hin with
      ⟨-, hrefused⟩ | ⟨hfree, u, hstored, hset⟩
    · rw [hrefused, Except.ok.injEq, Prod.mk.injEq] at h
      obtain ⟨rfl, rfl⟩ := h
      exact ⟨.inl ⟨rfl, fun _ => rfl⟩, id⟩
    · rw [hstored, Except.ok.injEq, Prod.mk.injEq] at h
      obtain ⟨rfl, rfl⟩ := h
      obtain ⟨hself, hother⟩ := setSlot_entry hset
      refine ⟨.inr ⟨rfl, ?_, hself, hother⟩, fun _ => setSlot_allocated hset⟩
      rw [Option.eq_none_iff_forall_ne_some]
      exact fun e he => hfree ⟨e, entry_eq_some.mp he⟩
  · obtain ⟨f, hf⟩ := insertElem_fault (l := ⟨fd, 0, 0, 0, 0, 0, s⟩) hin
    rw [hf] at h
    cases h

/-- CREATE: the map gets one new key, or stays as it is. -/
theorem fdElemCreate_created {g g' : Globals σ} {alloc : Alloc} {fd : ℤ × ℤ} {s : σ} {ret : ℤ}
    (h : fdElemCreate g alloc fd s = .ok (ret, g')) : Created g g' fd s ret := by
  have hsame : ∀ {u v : Globals σ},
      (Except.ok (-1, u) : Except Fault (ℤ × Globals σ)) = .ok (ret, v) →
      (∀ i, entry u i = entry g i) → u.fdTable = g.fdTable → Created g v fd s ret := by
    intro u v huv hu ht
    rw [Except.ok.injEq, Prod.mk.injEq] at huv
    obtain ⟨rfl, rfl⟩ := huv
    exact ⟨.inl ⟨rfl, hu⟩, fun hs => ht ▸ hs⟩
  rw [fdElemCreate] at h
  split at h
  · exact hsame h (fun _ => rfl) rfl
  · split at h
    · exact hsame h (fun _ => rfl) rfl
    · split at h
      · exact hsame h (fun _ => rfl) rfl
      · simp only at h
        split at h
        · split at h
          · exact hsame h (fun _ => rfl) rfl
          · cases hgrow : growTable g alloc.table with
            | error f => rw [hgrow] at h; cases h
            | ok o =>
              rw [hgrow] at h
              cases o with
              | none => exact hsame h (fun _ => rfl) rfl
              | some u =>
                have hkeep := growTable_entry hgrow
                have hcre : Created u g' fd s ret := insertElem_created h
                have hmap := hcre.map
                simp only [hkeep] at hmap
                exact ⟨hmap, fun _ => hcre.allocated (growTable_spec hgrow).2.1⟩
        · exact insertElem_created h

theorem fdElemCreate_inserts {g g' : Globals σ} {alloc : Alloc} {fd : ℤ × ℤ} {s : σ} {ret : ℤ}
    (h : fdElemCreate g alloc fd s = .ok (ret, g')) : Inserts g g' fd s :=
  (fdElemCreate_created h).inserts

/-- DELETE: the map loses one key at most, and the call returns 0 exactly if it was there. -/
theorem fdElemDelete_entry {g g' : Globals σ} {fd ret : ℤ} (h : fdElemDelete g fd = .ok (ret, g')) :
    entry g' fd = none ∧ (∀ i, i ≠ fd → entry g' i = entry g i) ∧
      ((ret = 0 ∧ entry g fd ≠ none) ∨ (ret = -1 ∧ entry g fd = none)) ∧ g'.fdTable.isSome := by
  rw [fdElemDelete] at h
  cases hs : slot g fd with
  | error f => rw [hs] at h; cases h
  | ok o =>
    have hentry : entry g fd = o := by rw [entry, hs]; rfl
    rw [hs] at h
    cases o with
    | none =>
      have h : (Except.ok (-1, g) : Except Fault (ℤ × Globals σ)) = .ok (ret, g') := h
      rw [Except.ok.injEq, Prod.mk.injEq] at h
      obtain ⟨rfl, rfl⟩ := h
      exact ⟨hentry, fun _ _ => rfl, .inr ⟨rfl, hentry⟩, (slot_ok_iff.mp ⟨_, hs⟩).1⟩
    | some e =>
      cases hset : setSlot g fd none with
      | error f =>
        have h : (setSlot g fd none >>= fun g => .ok (0, g)) = .ok (ret, g') := h
        rw [hset] at h
        cases h
      | ok u =>
        have h : (setSlot g fd none >>= fun g => .ok (0, g)) = .ok (ret, g') := h
        rw [hset] at h
        have h : (Except.ok (0, u) : Except Fault (ℤ × Globals σ)) = .ok (ret, g') := h
        rw [Except.ok.injEq, Prod.mk.injEq] at h
        obtain ⟨rfl, rfl⟩ := h
        obtain ⟨hself, hother⟩ := setSlot_entry hset
        exact ⟨hself, hother, .inl ⟨rfl, by rw [hentry]; simp⟩, setSlot_allocated hset⟩

theorem getSocketFromFd_some {g : Globals σ} {fd : ℤ} {s : σ} :
    getSocketFromFd g fd = .ok (some s) ↔ ∃ e, entry g fd = some e ∧ e.socket = s := by
  rw [getSocketFromFd, entry]
  cases hs : slot g fd with
  | error f => simp [Except.map, Except.toOption]
  | ok o => simp [Except.map, Except.toOption]

/-- What the search finds is an entry for the socket. -/
theorem getFdElemFromSocket_some [DecidableEq σ] {g : Globals σ} {s : σ} {i : ℕ} {e : FdElem σ}
    (h : getFdElemFromSocket g s = .ok (some (i, e))) : entry g i = some e ∧ e.socket = s := by
  rw [getFdElemFromSocket] at h
  cases hl : g.fdTable with
  | none => rw [hl] at h; cases h
  | some l =>
    rw [hl] at h
    simp only [Except.ok.injEq, Option.bind_eq_some_iff, Option.map_eq_some_iff, Prod.exists] at h
    obtain ⟨o, j, hfind, e', rfl, he⟩ := h
    rw [Prod.mk.injEq] at he
    obtain ⟨rfl, rfl⟩ := he
    have hmem := List.mem_of_find?_eq_some hfind
    rw [List.mk_mem_zipIdx_iff_getElem?] at hmem
    obtain ⟨hlt, -⟩ := List.getElem?_eq_some_iff.mp hmem
    have hlen := g.length_eq l hl
    refine ⟨entry_eq_some.mpr ?_, by simpa using List.find?_some hfind⟩
    rw [slot_some hl, if_pos (by omega), Int.toNat_natCast, hmem]
    rfl

/-- The search finds every socket that has an entry. -/
theorem getFdElemFromSocket_isSome [DecidableEq σ] {g : Globals σ} {i : ℤ} {e : FdElem σ}
    (h : entry g i = some e) : ∃ j e', getFdElemFromSocket g e.socket = .ok (some (j, e')) := by
  have hslot := entry_eq_some.mp h
  obtain ⟨hsome, hi⟩ := slot_ok_iff.mp ⟨_, hslot⟩
  rw [getFdElemFromSocket]
  cases hl : g.fdTable with
  | none => rw [hl] at hsome; cases hsome
  | some l =>
    rw [slot_some hl, if_pos hi, Except.ok.injEq, Option.join_eq_some_iff] at hslot
    simp only
    cases hfind : l.zipIdx.find? fun (o, _) => o.any (·.socket = e.socket) with
    | none =>
      rw [List.find?_eq_none] at hfind
      exact absurd (by simp) (hfind (some e, i.toNat) (List.mk_mem_zipIdx_iff_getElem?.mpr hslot))
    | some x =>
      obtain ⟨o, j⟩ := x
      have hany := List.find?_some hfind
      cases o with
      | none => simp at hany
      | some e' => exact ⟨j, e', rfl⟩

/-- The key of an entry is the read end of its pipe. -/
def Keyed (g : Globals σ) : Prop := ∀ i e, entry g i = some e → e.fd.1 = i

theorem Keyed.create {g g' : Globals σ} {alloc : Alloc} {fd : ℤ × ℤ} {s : σ} {ret : ℤ}
    (h : Keyed g) (hc : fdElemCreate g alloc fd s = .ok (ret, g')) : Keyed g' := by
  intro i e he
  rcases fdElemCreate_inserts hc with hsame | ⟨-, hnew, hold⟩
  · exact h i e (hsame i ▸ he)
  · by_cases hi : i = fd.1
    · rw [hi, hnew, Option.some.injEq] at he
      rw [← he, hi]
    · exact h i e (hold i hi ▸ he)

theorem Keyed.delete {g g' : Globals σ} {fd ret : ℤ} (h : Keyed g)
    (hd : fdElemDelete g fd = .ok (ret, g')) : Keyed g' := by
  obtain ⟨hgone, hold, -⟩ := fdElemDelete_entry hd
  intro i e he
  by_cases hi : i = fd
  · rw [hi, hgone] at he
    cases he
  · exact h i e (hold i hi ▸ he)

end FdPicotcp.FdTable
