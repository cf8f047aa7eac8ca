import FdPicotcp.Lib.Threads
import FdPicotcp.Table.FdTable

/-! Threads in `fd_elem_create` at the same time.

    The table grows into a new array while other threads test and write slots; size, array and
    pointer change one after the other. An entry written into the old array behind the copying loop
    is lost with it. `Apart` says what the other threads may not do while one grows the table. -/

namespace FdPicotcp.Creators
open Transition Threads FdTable

variable {σ : Type}

/-- A slot: what `malloc` left there, `NULL`, or an entry. -/
inductive Cell (σ : Type) where
  | garbage
  | null
  | elem (e : FdElem σ)
  deriving DecidableEq

/-- An array, and whether it has been freed. -/
structure Arr (σ : Type) where
  cells : List (Cell σ)
  freed : Bool
  deriving DecidableEq

/-- The globals and the arrays by address. `opened` are the entries whose creation has begun,
    `returned` those whose descriptor has been returned. -/
structure Shared (σ : Type) where
  fdTableSize : ℕ
  maxFd : ℤ
  fdTable : ℕ
  arrays : ℕ → Option (Arr σ)
  opened : List (FdElem σ)
  returned : List (FdElem σ)

/-- The array at `a` is now `arr`. -/
def Shared.put (g : Shared σ) (a : ℕ) (arr : Arr σ) : Shared σ :=
  { g with arrays := Function.update g.arrays a (some arr) }

/-- Read `a[i]`; nothing outside the array and nothing once it is freed. -/
def load (g : Shared σ) (a : ℕ) (i : ℤ) : Option (Cell σ) :=
  (g.arrays a).bind fun arr => if arr.freed ∨ i < 0 then none else arr.cells[i.toNat]?

/-- `a[i] = c` -/
def store (g : Shared σ) (a : ℕ) (i : ℤ) (c : Cell σ) : Option (Shared σ) :=
  (g.arrays a).bind fun arr =>
    if arr.freed ∨ i < 0 ∨ arr.cells.length ≤ i.toNat then none
    else some (g.put a { arr with cells := arr.cells.set i.toNat c })

/-- The next statement of a thread; `new` is `new_table`, `j` the loop index. A thread that accesses
    memory outside an array, or of a freed one, is at `fault`. -/
inductive Pc (σ : Type) where
  | out
  | sizeTest (l : FdElem σ)
  | maxTest (l : FdElem σ)
  | malloc (l : FdElem σ)
  | copy (l : FdElem σ) (new j : ℕ)
  | clear (l : FdElem σ) (new j : ℕ)
  | size (l : FdElem σ) (new : ℕ)
  | free (l : FdElem σ) (new : ℕ)
  | switch (l : FdElem σ) (new : ℕ)
  | slotTest (l : FdElem σ)
  | insert (l : FdElem σ)
  | ret (l : FdElem σ)
  | fault
  deriving DecidableEq

/-- What a thread goes on with. -/
inductive Ev (σ : Type) where
  /-- `socket()` or `accept()`, with its pipe and its socket -/
  | call (fd : ℤ × ℤ) (s : σ)
  | next
  /-- where the allocator puts the new array -/
  | malloc (a : Option ℕ)
  deriving DecidableEq

/-- `fd_elem_create` from the size test on. A doubled size that is no `int` is above every
    `MAX_FD`. -/
def createStep [DecidableEq σ] (g : Shared σ) : Pc σ → Ev σ → Option (Shared σ × Pc σ)
  | .out, .call fd s =>
    if 0 ≤ fd.1 ∧ 0 ≤ fd.2 ∧ ∀ e ∈ g.opened, e.fd.1 ≠ fd.1 ∧ e.socket ≠ s then
      let l : FdElem σ := ⟨fd, 0, 0, 0, 0, 0, s⟩
      some ({ g with opened := l :: g.opened }, .sizeTest l)
    else none
  | .sizeTest l, .next =>
    some (g, if g.fdTableSize ≤ l.fd.1 ∨ g.fdTableSize ≤ l.fd.2 then .maxTest l else .slotTest l)
  | .maxTest l, .next => some (g, if g.maxFd < 2 * g.fdTableSize then .out else .malloc l)
  | .malloc _, .malloc none => some (g, .out)
  | .malloc l, .malloc (some a) =>
    if g.arrays a = none then
      some (g.put a ⟨List.replicate (2 * g.fdTableSize) .garbage, false⟩, .copy l a 0)
    else none
  | .copy l new j, .next =>
    if j < g.fdTableSize then
      match (load g g.fdTable j).bind (store g new j) with
      | some g => some (g, .copy l new (j + 1))
      | none => some (g, .fault)
    else some (g, .clear l new g.fdTableSize)
  | .clear l new j, .next =>
    if j < 2 * g.fdTableSize then
      match store g new j .null with
      | some g => some (g, .clear l new (j + 1))
      | none => some (g, .fault)
    else some (g, .size l new)
  | .size l new, .next => some ({ g with fdTableSize := 2 * g.fdTableSize }, .free l new)
  | .free l new, .next =>
    match g.arrays g.fdTable with
    | some arr =>
      if arr.freed then some (g, .fault)
      else some (g.put g.fdTable { arr with freed := true }, .switch l new)
    | none => some (g, .fault)
  | .switch l new, .next => some ({ g with fdTable := new }, .slotTest l)
  | .slotTest l, .next =>
    match load g g.fdTable l.fd.1 with
    | some .null => some (g, .insert l)
    | some (.elem _) => some (g, .out)
    | _ => some (g, .fault)
  | .insert l, .next =>
    match store g g.fdTable l.fd.1 (.elem l) with
    | some g => some (g, .ret l)
    | none => some (g, .fault)
  | .ret l, .next => some ({ g with returned := l :: g.returned }, .out)
  | _, _ => none

/-- Between the allocation of the new array and the switch to it. -/
inductive Growing : Pc σ → Prop
  | copy (l : FdElem σ) (new j : ℕ) : Growing (.copy l new j)
  | clear (l : FdElem σ) (new j : ℕ) : Growing (.clear l new j)
  | size (l : FdElem σ) (new : ℕ) : Growing (.size l new)
  | free (l : FdElem σ) (new : ℕ) : Growing (.free l new)
  | switch (l : FdElem σ) (new : ℕ) : Growing (.switch l new)

instance (l : Pc σ) : Decidable (Growing l) :=
  match l with
  | .copy l new j => isTrue (.copy l new j)
  | .clear l new j => isTrue (.clear l new j)
  | .size l new => isTrue (.size l new)
  | .free l new => isTrue (.free l new)
  | .switch l new => isTrue (.switch l new)
  | .out | .sizeTest _ | .maxTest _ | .malloc _ | .slotTest _ | .insert _ | .ret _ | .fault =>
    isFalse nofun

/-- What one thread does while another one is at `m`: it does not begin to grow the table while the
    other grows it, reads no slot beyond the old array or of the freed one, and writes none that has
    been copied already. -/
def ApartFrom (g : Shared σ) : Pc σ → Ev σ → Pc σ → Prop
  | .malloc _, .malloc (some _), m => ¬ Growing m
  | .slotTest l, _, .free .. => 2 * l.fd.1 < g.fdTableSize
  | .slotTest _, _, .switch .. => False
  | .insert l, _, .copy _ _ j => j ≤ l.fd.1
  | .insert _, _, m => ¬ Growing m
  | _, _, _ => True

instance (g : Shared σ) (l m : Pc σ) (ev : Ev σ) : Decidable (ApartFrom g l ev m) := by
  unfold ApartFrom
  split <;> infer_instance

variable {ι : Type} [DecidableEq ι]

/-- The step of one thread keeps apart from all the others. -/
def Apart (s : Pool ι (Shared σ) (Pc σ)) (a : ι × Ev σ) : Prop :=
  ∀ u, u ≠ a.1 → ApartFrom s.shared (s.locals a.1) a.2 (s.locals u)

instance [Fintype ι] (s : Pool ι (Shared σ) (Pc σ)) (a : ι × Ev σ) : Decidable (Apart s a) :=
  inferInstanceAs (Decidable (∀ _, _))

/-- After `init`, with `MAX_FD` as it is. -/
def begin (maxFd : ℤ) : Pool ι (Shared σ) (Pc σ) :=
  ⟨⟨8, maxFd, 0, Function.update (fun _ => none) 0 (some ⟨List.replicate 8 .null, false⟩), [], []⟩,
    fun _ => .out⟩

theorem put_self (g : Shared σ) (a : ℕ) (arr : Arr σ) : (g.put a arr).arrays a = some arr :=
  Function.update_self ..

theorem put_other {a b : ℕ} (h : b ≠ a) (g : Shared σ) (arr : Arr σ) :
    (g.put a arr).arrays b = g.arrays b := Function.update_of_ne h ..

theorem load_some {g : Shared σ} {a : ℕ} {i : ℤ} {c : Cell σ} : load g a i = some c ↔
    ∃ arr, g.arrays a = some arr ∧ arr.freed = false ∧ 0 ≤ i ∧ arr.cells[i.toNat]? = some c := by
  simp only [load, Option.bind_eq_some_iff, Option.ite_none_left_eq_some, not_or, not_lt,
    Bool.not_eq_true, and_assoc]

theorem store_some {g g' : Shared σ} {a : ℕ} {i : ℤ} {c : Cell σ} : store g a i c = some g' ↔
    ∃ arr, g.arrays a = some arr ∧ arr.freed = false ∧ 0 ≤ i ∧ i.toNat < arr.cells.length ∧
      g.put a { arr with cells := arr.cells.set i.toNat c } = g' := by
  simp only [store, Option.bind_eq_some_iff, Option.ite_none_left_eq_some, not_or, not_lt, not_le,
    Bool.not_eq_true, Option.some.injEq, and_assoc]

/-- The new array `b`, with the slots below `k` copied and those from the old size to `m` cleared. -/
structure CopyOf (arr b : Arr σ) (k m : ℕ) : Prop where
  freed : b.freed = false
  length : b.cells.length = 2 * arr.cells.length
  old : ∀ i, i < k → b.cells[i]? = arr.cells[i]?
  empty : ∀ i, arr.cells.length ≤ i → i < m → b.cells[i]? = some .null

/-- A new array stands beside the one that `fd_table` points to. -/
def New (g : Shared σ) (arr : Arr σ) (new k m : ℕ) : Prop :=
  new ≠ g.fdTable ∧ ∃ b, g.arrays new = some b ∧ CopyOf arr b k m

/-- The shared state at each statement of a growth; `arr` is what `fd_table` points to. -/
def GrowsTo (g : Shared σ) (arr : Arr σ) : Pc σ → Prop
  | .copy _ new j => g.fdTableSize = arr.cells.length ∧ arr.freed = false ∧
    j ≤ arr.cells.length ∧ New g arr new j 0
  | .clear _ new j => g.fdTableSize = arr.cells.length ∧ arr.freed = false ∧
    arr.cells.length ≤ j ∧ j ≤ 2 * arr.cells.length ∧ New g arr new arr.cells.length j
  | .size _ new => g.fdTableSize = arr.cells.length ∧ arr.freed = false ∧
    New g arr new arr.cells.length (2 * arr.cells.length)
  | .free _ new => g.fdTableSize = 2 * arr.cells.length ∧ arr.freed = false ∧
    New g arr new arr.cells.length (2 * arr.cells.length)
  | .switch _ new => g.fdTableSize = 2 * arr.cells.length ∧
    New g arr new arr.cells.length (2 * arr.cells.length)
  | _ => False

/-- The shared state while nobody grows the table. -/
def Steady (g : Shared σ) (arr : Arr σ) : Prop :=
  arr.freed = false ∧ g.fdTableSize = arr.cells.length

/-- The slots of `arr`, and perhaps more that are empty. -/
structure Extends (arr arr' : Arr σ) : Prop where
  keeps : ∀ (i : ℕ) c, arr.cells[i]? = some c → arr'.cells[i]? = some c
  empty : ∀ (i : ℕ) c, arr'.cells[i]? = some c → arr.cells[i]? = some c ∨ c = .null

theorem Extends.refl (arr : Arr σ) : Extends arr arr := ⟨fun _ _ => id, fun _ _ => .inl⟩

/-- Once all slots are copied and cleared, the new array extends the old one. -/
theorem CopyOf.extends {arr b : Arr σ} (h : CopyOf arr b arr.cells.length (2 * arr.cells.length)) :
    Extends arr b := by
  refine ⟨?_, ?_⟩
  · intro i c hc
    obtain ⟨hi, -⟩ := List.getElem?_eq_some_iff.mp hc
    rw [h.old i hi, hc]
  · intro i c hc
    obtain ⟨hi, -⟩ := List.getElem?_eq_some_iff.mp hc
    rw [h.length] at hi
    rcases lt_or_ge i arr.cells.length with hlt | hge
    · exact .inl (h.old i hlt ▸ hc)
    · rw [h.empty i hge hi, Option.some.injEq] at hc
      exact .inr hc.symm

/-- One turn of the copying loop. -/
theorem CopyOf.copy {arr b : Arr σ} {k : ℕ} {c : Cell σ} (h : CopyOf arr b k 0)
    (hc : arr.cells[k]? = some c) :
    CopyOf arr { b with cells := b.cells.set k c } (k + 1) 0 := by
  obtain ⟨hk, -⟩ := List.getElem?_eq_some_iff.mp hc
  refine ⟨h.freed, by rw [List.length_set, h.length], ?_, ?_⟩
  · intro i hi
    rcases Nat.lt_succ_iff_lt_or_eq.mp hi with hlt | rfl
    · rw [List.getElem?_set_ne (by omega), h.old i hlt]
    · rw [List.getElem?_set_self (by rw [h.length]; omega), hc]
  · intro i _ hi
    exact absurd hi (Nat.not_lt_zero i)

/-- One turn of the clearing loop. -/
theorem CopyOf.clear {arr b : Arr σ} {m : ℕ} (h : CopyOf arr b arr.cells.length m)
    (lo : arr.cells.length ≤ m) (hm : m < 2 * arr.cells.length) :
    CopyOf arr { b with cells := b.cells.set m .null } arr.cells.length (m + 1) := by
  refine ⟨h.freed, by rw [List.length_set, h.length], ?_, ?_⟩
  · intro i hi
    rw [List.getElem?_set_ne (by omega), h.old i hi]
  · intro i hle hi
    rcases Nat.lt_succ_iff_lt_or_eq.mp hi with hlt | rfl
    · rw [List.getElem?_set_ne (by omega), h.empty i hle hlt]
    · rw [List.getElem?_set_self (by rw [h.length]; omega)]

/-- An insertion into the old array, at a slot that has not been copied. -/
theorem CopyOf.insert {arr b : Arr σ} {k i : ℕ} {c : Cell σ} (h : CopyOf arr b k 0) (hi : k ≤ i) :
    CopyOf { arr with cells := arr.cells.set i c } b k 0 := by
  refine ⟨h.freed, by rw [List.length_set, h.length], ?_, ?_⟩
  · intro j hj
    rw [h.old j hj, List.getElem?_set_ne (by omega)]
  · intro j _ hj
    exact absurd hj (Nat.not_lt_zero j)

/-- The entry of the call a thread is in. -/
def Pc.entry : Pc σ → Option (FdElem σ)
  | .out | .fault => none
  | .sizeTest l | .maxTest l | .malloc l | .copy l _ _ | .clear l _ _ | .size l _ | .free l _
  | .switch l _ | .slotTest l | .insert l | .ret l => some l

section Steps
variable [DecidableEq σ]

/-- GROWTH: a statement keeps what `fd_table` points to, up to empty slots at its end, and leaves
    either a growth or, after the switch, a table that is steady again. -/
theorem grows_step {g g' : Shared σ} {arr : Arr σ} {l l' : Pc σ} {ev : Ev σ}
    (ht : g.arrays g.fdTable = some arr) (h : GrowsTo g arr l)
    (hs : createStep g l ev = some (g', l')) :
    g'.opened = g.opened ∧ g'.returned = g.returned ∧ l'.entry = l.entry ∧
      g.fdTableSize ≤ g'.fdTableSize ∧ ∃ arr', g'.arrays g'.fdTable = some arr' ∧
      Extends arr arr' ∧ (GrowsTo g' arr' l' ∨ Steady g' arr' ∧ ∃ e, l' = .slotTest e) := by
  cases l with
  | copy e new j =>
    cases ev <;> simp only [createStep, reduceCtorEq] at hs
    obtain ⟨hsize, hlive, hj, hne, b, hb, hcopy⟩ := h
    split at hs
    · next hlt =>
      have hget : arr.cells[j]? = some arr.cells[j] := List.getElem?_eq_getElem (by omega)
      have hload : load g g.fdTable j = some arr.cells[j] :=
        load_some.mpr ⟨arr, ht, hlive, by omega, by simp⟩
      have hstore := store_some (g := g) (c := arr.cells[j]).mpr
        ⟨b, hb, hcopy.freed, Int.natCast_nonneg j, by rw [hcopy.length]; simp; omega, rfl⟩
      rw [hload, Option.bind_some, hstore] at hs
      simp only [Option.some.injEq, Prod.mk.injEq] at hs
      obtain ⟨rfl, rfl⟩ := hs
      refine ⟨rfl, rfl, rfl, le_rfl, arr, (put_other hne.symm g _).trans ht, .refl arr, .inl ?_⟩
      exact ⟨hsize, hlive, by omega, hne, _, put_self .., hcopy.copy hget⟩
    · next hge =>
      simp only [Option.some.injEq, Prod.mk.injEq] at hs
      obtain ⟨rfl, rfl⟩ := hs
      have hend : j = arr.cells.length := by omega
      subst hend
      refine ⟨rfl, rfl, rfl, le_rfl, arr, ht, .refl arr, .inl ?_⟩
      rw [hsize]
      refine ⟨hsize, hlive, le_rfl, by omega, hne, b, hb, hcopy.freed, hcopy.length, hcopy.old, ?_⟩
      intro i lo hi
      exact absurd hi (by omega)
  | clear e new j =>
    cases ev <;> simp only [createStep, reduceCtorEq] at hs
    obtain ⟨hsize, hlive, lo, hi, hne, b, hb, hcopy⟩ := h
    split at hs
    · next hlt =>
      have hstore := store_some (g := g) (c := Cell.null).mpr
        ⟨b, hb, hcopy.freed, Int.natCast_nonneg j, by rw [hcopy.length]; simp; omega, rfl⟩
      rw [hstore] at hs
      simp only [Option.some.injEq, Prod.mk.injEq] at hs
      obtain ⟨rfl, rfl⟩ := hs
      refine ⟨rfl, rfl, rfl, le_rfl, arr, (put_other hne.symm g _).trans ht, .refl arr, .inl ?_⟩
      exact ⟨hsize, hlive, by omega, by omega, hne, _, put_self .., hcopy.clear lo (by omega)⟩
    · next hge =>
      simp only [Option.some.injEq, Prod.mk.injEq] at hs
      obtain ⟨rfl, rfl⟩ := hs
      have hend : j = 2 * arr.cells.length := by omega
      subst hend
      exact ⟨rfl, rfl, rfl, le_rfl, arr, ht, .refl arr, .inl ⟨hsize, hlive, hne, b, hb, hcopy⟩⟩
  | size e new =>
    cases ev <;> simp only [createStep, reduceCtorEq, Option.some.injEq, Prod.mk.injEq] at hs
    obtain ⟨rfl, rfl⟩ := hs
    obtain ⟨hsize, hlive, hnew⟩ := h
    exact ⟨rfl, rfl, rfl, by simp only; omega, arr, ht, .refl arr, .inl ⟨by rw [hsize], hlive, hnew⟩⟩
  | free e new =>
    obtain ⟨hsize, hlive, hne, b, hb, hcopy⟩ := h
    cases ev <;> simp only [createStep, reduceCtorEq, ht, hlive, Bool.false_eq_true, if_false,
      Option.some.injEq, Prod.mk.injEq] at hs
    obtain ⟨rfl, rfl⟩ := hs
    refine ⟨rfl, rfl, rfl, le_rfl, { arr with freed := true }, put_self .., ⟨fun _ _ => id, fun _ _ => .inl⟩, ?_⟩
    refine .inl ⟨hsize, hne, b, (put_other hne g _).trans hb, ?_⟩
    exact ⟨hcopy.freed, hcopy.length, hcopy.old, hcopy.empty⟩
  | switch e new =>
    cases ev <;> simp only [createStep, reduceCtorEq, Option.some.injEq, Prod.mk.injEq] at hs
    obtain ⟨rfl, rfl⟩ := hs
    obtain ⟨hsize, hne, b, hb, hcopy⟩ := h
    exact ⟨rfl, rfl, rfl, le_rfl, b, hb, hcopy.extends, .inr ⟨⟨hcopy.freed, hsize.trans hcopy.length.symm⟩, e, rfl⟩⟩
  | _ => exact h.elim

/-- What a thread that is not growing the table can do. -/
inductive Quiet (g : Shared σ) : Pc σ → Ev σ → Shared σ → Pc σ → Prop
  | call (l : FdElem σ) (ev : Ev σ) (h0 : 0 ≤ l.fd.1)
      (hfresh : ∀ e ∈ g.opened, e.fd.1 ≠ l.fd.1 ∧ e.socket ≠ l.socket) :
      Quiet g .out ev { g with opened := l :: g.opened } (.sizeTest l)
  /-- a test, or a refusal -/
  | move {l l' : Pc σ} (ev : Ev σ) (hpc : ¬ Growing l') (hret : ∀ e, l' ≠ .ret e)
      (hentry : ∀ e ∈ l'.entry, e ∈ l.entry) : Quiet g l ev g l'
  | malloc (l : FdElem σ) (a : ℕ) (ha : g.arrays a = none) : Quiet g (.malloc l) (.malloc (some a))
      (g.put a ⟨List.replicate (2 * g.fdTableSize) .garbage, false⟩) (.copy l a 0)
  | insert (l : FdElem σ) (ev : Ev σ) {g' : Shared σ}
      (hstore : store g g.fdTable l.fd.1 (.elem l) = some g') : Quiet g (.insert l) ev g' (.ret l)
  | ret (l : FdElem σ) (ev : Ev σ) :
      Quiet g (.ret l) ev { g with returned := l :: g.returned } .out

theorem quiet_step {g g' : Shared σ} {l l' : Pc σ} {ev : Ev σ} (h : ¬ Growing l)
    (hs : createStep g l ev = some (g', l')) : Quiet g l ev g' l' := by
  cases l with
  | out =>
    cases ev <;> simp only [createStep, reduceCtorEq, Option.ite_none_right_eq_some,
      Option.some.injEq, Prod.mk.injEq] at hs
    obtain ⟨⟨h0, -, hfresh⟩, rfl, rfl⟩ := hs
    exact .call ⟨_, 0, 0, 0, 0, 0, _⟩ _ h0 hfresh
  | sizeTest e =>
    cases ev <;> simp only [createStep, reduceCtorEq, Option.some.injEq, Prod.mk.injEq] at hs
    obtain ⟨rfl, rfl⟩ := hs
    split
    · exact .move _ nofun nofun fun _ => id
    · exact .move _ nofun nofun fun _ => id
  | maxTest e =>
    cases ev <;> simp only [createStep, reduceCtorEq, Option.some.injEq, Prod.mk.injEq] at hs
    obtain ⟨rfl, rfl⟩ := hs
    split
    · exact .move _ nofun nofun nofun
    · exact .move _ nofun nofun fun _ => id
  | malloc e =>
    cases ev with
    | malloc a =>
      cases a with
      | none =>
        simp only [createStep, Option.some.injEq, Prod.mk.injEq] at hs
        obtain ⟨rfl, rfl⟩ := hs
        exact .move _ nofun nofun nofun
      | some a =>
        simp only [createStep, Option.ite_none_right_eq_some, Option.some.injEq,
          Prod.mk.injEq] at hs
        obtain ⟨ha, rfl, rfl⟩ := hs
        exact .malloc e a ha
    | _ => cases hs
  | slotTest e =>
    cases ev <;> simp only [createStep, reduceCtorEq] at hs
    split at hs <;> simp only [Option.some.injEq, Prod.mk.injEq] at hs <;> obtain ⟨rfl, rfl⟩ := hs
    · exact .move _ nofun nofun fun _ => id
    · exact .move _ nofun nofun nofun
    · exact .move _ nofun nofun nofun
  | insert e =>
    cases ev <;> simp only [createStep, reduceCtorEq] at hs
    split at hs <;> simp only [Option.some.injEq, Prod.mk.injEq] at hs <;> obtain ⟨rfl, rfl⟩ := hs
    · next hstore => exact .insert e _ hstore
    · exact .move _ nofun nofun nofun
  | ret e =>
    cases ev <;> simp only [createStep, reduceCtorEq, Option.some.injEq, Prod.mk.injEq] at hs
    obtain ⟨rfl, rfl⟩ := hs
    exact .ret e _
  | fault => cases ev <;> cases hs
  | copy e new j => exact absurd (.copy e new j) h
  | clear e new j => exact absurd (.clear e new j) h
  | size e new => exact absurd (.size e new) h
  | free e new => exact absurd (.free e new) h
  | switch e new => exact absurd (.switch e new) h

end Steps

theorem Quiet.size {g g' : Shared σ} {l l' : Pc σ} {ev : Ev σ} (h : Quiet g l ev g' l') :
    g'.fdTableSize = g.fdTableSize := by
  cases h with
  | insert l ev hstore =>
    obtain ⟨arr, -, -, -, -, rfl⟩ := store_some.mp hstore
    rfl
  | _ => rfl

/-- The slot of the entry's key holds it. -/
def Stored (arr : Arr σ) (e : FdElem σ) : Prop :=
  0 ≤ e.fd.1 ∧ arr.cells[e.fd.1.toNat]? = some (.elem e)

/-- The shared state: `arr` is the array of `fd_table`, every entry in it is at its own key, and
    the entries that have been returned are in it. -/
structure Base (g : Shared σ) (arr : Arr σ) : Prop where
  table : g.arrays g.fdTable = some arr
  cells : ∀ (i : ℕ) c, arr.cells[i]? = some c → c = .null ∨ ∃ e ∈ g.opened, c = .elem e ∧ e.fd.1 = i
  nonneg : ∀ e ∈ g.opened, 0 ≤ e.fd.1
  unique : ∀ e ∈ g.opened, ∀ e' ∈ g.opened, e.fd.1 = e'.fd.1 ∨ e.socket = e'.socket → e = e'
  returned : ∀ e ∈ g.returned, Stored arr e

/-- A thread works on an entry whose creation has begun; before it returns it has stored it. -/
structure Local (g : Shared σ) (arr : Arr σ) (l : Pc σ) : Prop where
  opened : ∀ e ∈ l.entry, e ∈ g.opened
  stored : ∀ e, l = .ret e → Stored arr e

/-- At most one thread grows the table. -/
inductive Phase (s : Pool ι (Shared σ) (Pc σ)) (arr : Arr σ) : Prop
  | steady (h : Steady s.shared arr) (hpc : ∀ u, ¬ Growing (s.locals u))
  | growing (t : ι) (h : GrowsTo s.shared arr (s.locals t))
      (hpc : ∀ u, u ≠ t → ¬ Growing (s.locals u))

/-- The array of the table, the place of each thread, and the growth if there is one. -/
structure Inv (s : Pool ι (Shared σ) (Pc σ)) (arr : Arr σ) : Prop where
  base : Base s.shared arr
  locals : ∀ u, Local s.shared arr (s.locals u)
  phase : Phase s arr

/-- The entries of `arr` are in their slots of `arr'`. -/
def Persists (arr arr' : Arr σ) : Prop :=
  ∀ (i : ℕ) e, arr.cells[i]? = some (.elem e) → arr'.cells[i]? = some (.elem e)

theorem Extends.persists {arr arr' : Arr σ} (h : Extends arr arr') : Persists arr arr' :=
  fun i e => h.keeps i (.elem e)

theorem Stored.persists {arr arr' : Arr σ} {e : FdElem σ} (h : Stored arr e)
    (hp : Persists arr arr') : Stored arr' e := ⟨h.1, hp _ _ h.2⟩

theorem Base.extends {g g' : Shared σ} {arr arr' : Arr σ} (h : Base g arr)
    (ht : g'.arrays g'.fdTable = some arr') (hx : Extends arr arr') (ho : g'.opened = g.opened)
    (hr : g'.returned = g.returned) : Base g' arr' := by
  refine ⟨ht, ?_, ho ▸ h.nonneg, ho ▸ h.unique, fun e he => (h.returned e (hr ▸ he)).persists hx.persists⟩
  intro i c hc
  rw [ho]
  rcases hx.empty i c hc with hold | hnull
  · exact h.cells i c hold
  · exact .inl hnull

theorem Base.put {g : Shared σ} {arr : Arr σ} {a : ℕ} (h : Base g arr) (ha : g.fdTable ≠ a)
    (b : Arr σ) : Base (g.put a b) arr :=
  h.extends ((put_other ha g b).trans h.table) (.refl arr) rfl rfl

theorem Local.persists {g g' : Shared σ} {arr arr' : Arr σ} {l : Pc σ} (h : Local g arr l)
    (hp : Persists arr arr') (ho : g'.opened = g.opened) : Local g' arr' l :=
  ⟨ho ▸ h.opened, fun e he => (h.stored e he).persists hp⟩

theorem GrowsTo.congr {g g' : Shared σ} {arr : Arr σ} {l : Pc σ} (h : GrowsTo g arr l)
    (hs : g'.fdTableSize = g.fdTableSize) (ht : g'.fdTable = g.fdTable)
    (ha : g'.arrays = g.arrays) : GrowsTo g' arr l := by
  cases l <;> simp only [GrowsTo, New, hs, ht, ha] at h ⊢ <;> exact h

theorem growing_of_growsTo {g : Shared σ} {arr : Arr σ} {l : Pc σ} (h : GrowsTo g arr l) :
    Growing l := by
  cases l with
  | copy e new j => exact .copy e new j
  | clear e new j => exact .clear e new j
  | size e new => exact .size e new
  | free e new => exact .free e new
  | switch e new => exact .switch e new
  | _ => exact h.elim

/-- A step that leaves the arrays alone and moves a thread outside a growth. -/
theorem Phase.quiet {s : Pool ι (Shared σ) (Pc σ)} {arr : Arr σ} {g : Shared σ} {t : ι} {l : Pc σ}
    (h : Phase s arr) (hold : ¬ Growing (s.locals t)) (hnew : ¬ Growing l)
    (hs : g.fdTableSize = s.shared.fdTableSize) (ht : g.fdTable = s.shared.fdTable)
    (ha : g.arrays = s.shared.arrays) : Phase ⟨g, Function.update s.locals t l⟩ arr := by
  cases h with
  | steady h hpc =>
    refine .steady ⟨h.1, hs.trans h.2⟩ ?_
    rw [Function.forall_update_iff s.locals fun _ l => ¬ Growing l]
    exact ⟨hnew, fun u _ => hpc u⟩
  | growing v h hpc =>
    have hne : v ≠ t := by
      rintro rfl
      exact hold (growing_of_growsTo h)
    refine .growing v ?_ fun u hu => ?_
    · simp only [Function.update_of_ne hne]
      exact h.congr hs ht ha
    · rcases eq_or_ne u t with rfl | hut
      · simpa only [Function.update_self] using hnew
      · simp only [Function.update_of_ne hut]
        exact hpc u hu

/-- The array after an insertion. -/
def Arr.insert (arr : Arr σ) (e : FdElem σ) : Arr σ :=
  { arr with cells := arr.cells.set e.fd.1.toNat (.elem e) }

/-- An insertion at its own key overwrites no other entry. -/
theorem Base.insert_persists {g : Shared σ} {arr : Arr σ} {l : FdElem σ} (h : Base g arr)
    (hl : l ∈ g.opened) : Persists arr (arr.insert l) := by
  intro i e hcell
  obtain ⟨hlt, -⟩ := List.getElem?_eq_some_iff.mp hcell
  rcases h.cells _ _ hcell with hnull | ⟨e', he', heq, hi⟩
  · cases hnull
  rw [Cell.elem.injEq] at heq
  subst heq
  rcases eq_or_ne l.fd.1.toNat i with hkey | hkey
  · have hsame : l = e := h.unique l hl e he' (.inl (by have := h.nonneg l hl; omega))
    subst hsame
    rw [Arr.insert, hkey, List.getElem?_set_self hlt]
  · rw [Arr.insert, List.getElem?_set_ne hkey]
    exact hcell

theorem stored_insert {arr : Arr σ} {l : FdElem σ} (h0 : 0 ≤ l.fd.1)
    (hlt : l.fd.1.toNat < arr.cells.length) : Stored (arr.insert l) l :=
  ⟨h0, List.getElem?_set_self hlt⟩

theorem Base.insert {g : Shared σ} {arr : Arr σ} {l : FdElem σ} (h : Base g arr)
    (hl : l ∈ g.opened) : Base (g.put g.fdTable (arr.insert l)) (arr.insert l) := by
  refine ⟨put_self .., ?_, h.nonneg, h.unique, fun e he =>
    (h.returned e he).persists (h.insert_persists hl)⟩
  intro i c hc
  have h0 := h.nonneg l hl
  rw [Arr.insert, List.getElem?_set] at hc
  split at hc
  · next hkey =>
    split at hc
    · rw [Option.some.injEq] at hc
      exact .inr ⟨l, hl, hc.symm, by omega⟩
    · cases hc
  · exact h.cells i c hc

/-- An insertion next to a growth is copied with the rest. -/
theorem GrowsTo.insert {g : Shared σ} {arr : Arr σ} {l : Pc σ} {e : FdElem σ} {ev : Ev σ}
    (h : GrowsTo g arr l) (h0 : 0 ≤ e.fd.1) (hc : ApartFrom g (.insert e) ev l) :
    GrowsTo (g.put g.fdTable (arr.insert e)) (arr.insert e) l := by
  have hlen : (arr.insert e).cells.length = arr.cells.length := List.length_set
  cases l with
  | copy e' new j =>
    obtain ⟨hsize, hlive, hj, hne, b, hb, hcopy⟩ := h
    have hj' : (j : ℤ) ≤ e.fd.1 := hc
    refine ⟨hsize.trans hlen.symm, hlive, hlen.symm ▸ hj, hne, b, (put_other hne g _).trans hb, ?_⟩
    exact hcopy.insert (by omega)
  | clear e' new j => exact absurd (.clear e' new j) hc
  | size e' new => exact absurd (.size e' new) hc
  | free e' new => exact absurd (.free e' new) hc
  | switch e' new => exact absurd (.switch e' new) hc
  | _ => exact h.elim

/-- A new call. -/
theorem Base.opens {g : Shared σ} {arr : Arr σ} {l : FdElem σ} (h : Base g arr) (h0 : 0 ≤ l.fd.1)
    (hfresh : ∀ e ∈ g.opened, e.fd.1 ≠ l.fd.1 ∧ e.socket ≠ l.socket) :
    Base { g with opened := l :: g.opened } arr := by
  refine ⟨h.table, ?_, ?_, ?_, h.returned⟩
  · intro i c hc
    exact (h.cells i c hc).imp_right fun ⟨e, he, hi⟩ => ⟨e, List.mem_cons_of_mem l he, hi⟩
  · intro e he
    rcases List.mem_cons.mp he with rfl | he
    · exact h0
    · exact h.nonneg e he
  · intro e he e' he' heq
    rcases List.mem_cons.mp he with rfl | hold <;> rcases List.mem_cons.mp he' with rfl | hold'
    · rfl
    · obtain ⟨hkey, hsock⟩ := hfresh e' hold'
      exact (heq.elim (fun h => hkey h.symm) fun h => hsock h.symm).elim
    · obtain ⟨hkey, hsock⟩ := hfresh e hold
      exact (heq.elim hkey hsock).elim
    · exact h.unique e hold e' hold' heq

section Thread
variable {s : Pool ι (Shared σ) (Pc σ)} {arr : Arr σ} {g : Shared σ} {t : ι} {l : Pc σ} {e : FdElem σ}
  {ev : Ev σ}

/-- One thread has moved. -/
theorem locals_update (hl : Local g arr l) (hold : ∀ u, Local g arr (s.locals u)) :
    ∀ u, Local g arr (Function.update s.locals t l u) := by
  rw [Function.forall_update_iff s.locals fun _ l => Local g arr l]
  exact ⟨hl, fun u _ => hold u⟩

/-- The thread that grows the table goes on. -/
theorem Inv.grows [DecidableEq σ] (h : Inv s arr) (hgrow : Growing (s.locals t))
    (hstep : createStep s.shared (s.locals t) ev = some (g, l)) :
    ∃ arr', Inv ⟨g, Function.update s.locals t l⟩ arr' ∧ Persists arr arr' ∧
      s.shared.fdTableSize ≤ g.fdTableSize := by
  obtain ⟨hbase, hlocal, hphase⟩ := h
  cases hphase with
  | steady h hpc => exact absurd hgrow (hpc t)
  | growing v h hpc =>
    have hv : v = t := by
      by_contra hne
      exact hpc t (Ne.symm hne) hgrow
    subst hv
    obtain ⟨ho, hr, hentry, hsize, arr', ht, hx, hnext⟩ := grows_step hbase.table h hstep
    refine ⟨arr', ⟨hbase.extends ht hx ho hr, ?_, ?_⟩, hx.persists, hsize⟩
    · refine locals_update ⟨?_, ?_⟩ fun u => (hlocal u).persists hx.persists ho
      · rw [hentry, ho]
        exact (hlocal v).opened
      · rintro e rfl
        rcases hnext with hno | ⟨-, e', he'⟩
        · exact hno.elim
        · cases he'
    · rcases hnext with hgrows | ⟨hsteady, e, rfl⟩
      · refine .growing v (by simpa only [Function.update_self] using hgrows) fun u hu => ?_
        simp only [Function.update_of_ne hu]
        exact hpc u hu
      · refine .steady hsteady ?_
        rw [Function.forall_update_iff s.locals fun _ l => ¬ Growing l]
        exact ⟨nofun, hpc⟩

/-- A growth begins while no other one goes on. -/
theorem Phase.malloc {a : ℕ} (h : Phase s arr) (hold : ¬ Growing (s.locals t))
    (hapart : ∀ u, u ≠ t → ¬ Growing (s.locals u)) (hne : a ≠ s.shared.fdTable) :
    Phase ⟨s.shared.put a ⟨List.replicate (2 * s.shared.fdTableSize) .garbage, false⟩,
      Function.update s.locals t (.copy e a 0)⟩ arr := by
  cases h with
  | steady h hpc =>
    refine .growing t ?_ fun u hu => ?_
    · simp only [Function.update_self]
      refine ⟨h.2, h.1, Nat.zero_le _, hne, _, put_self .., rfl, ?_, ?_, ?_⟩
      · rw [List.length_replicate, h.2]
      · exact fun i hi => absurd hi (Nat.not_lt_zero i)
      · exact fun i _ hi => absurd hi (Nat.not_lt_zero i)
    · simp only [Function.update_of_ne hu]
      exact hpc u
  | growing v h hpc =>
    have hvt : v ≠ t := by
      rintro rfl
      exact hold (growing_of_growsTo h)
    exact absurd (growing_of_growsTo h) (hapart v hvt)

/-- An entry goes into its slot, which is still to be copied if the table grows. -/
theorem Phase.insert (h : Phase s arr) (hold : ¬ Growing (s.locals t))
    (hapart : ∀ u, u ≠ t → ApartFrom s.shared (.insert e) ev (s.locals u)) (h0 : 0 ≤ e.fd.1) :
    Phase ⟨s.shared.put s.shared.fdTable (arr.insert e), Function.update s.locals t (.ret e)⟩
      (arr.insert e) := by
  cases h with
  | steady h hpc =>
    refine .steady ⟨h.1, h.2.trans List.length_set.symm⟩ ?_
    rw [Function.forall_update_iff s.locals fun _ l => ¬ Growing l]
    exact ⟨nofun, fun u _ => hpc u⟩
  | growing v h hpc =>
    have hvt : v ≠ t := by
      rintro rfl
      exact hold (growing_of_growsTo h)
    refine .growing v ?_ fun u hu => ?_
    · simp only [Function.update_of_ne hvt]
      exact h.insert h0 (hapart v hvt)
    · rcases eq_or_ne u t with rfl | hut
      · simp only [Function.update_self]
        exact nofun
      · simp only [Function.update_of_ne hut]
        exact hpc u hu

/-- A thread outside a growth. -/
theorem Inv.quiet (h : Inv s arr) (hgrow : ¬ Growing (s.locals t))
    (hapart : ∀ u, u ≠ t → ApartFrom s.shared (s.locals t) ev (s.locals u))
    (hq : Quiet s.shared (s.locals t) ev g l) :
    ∃ arr', Inv ⟨g, Function.update s.locals t l⟩ arr' ∧ Persists arr arr' := by
  obtain ⟨hbase, hlocal, hphase⟩ := h
  have hmine := hlocal t
  have hquiet := hphase.quiet (t := t) (l := l) (g := g) hgrow
  have hold := hgrow
  generalize hlt : s.locals t = lt at hq hapart hmine hgrow
  cases hq with
  | call e ev h0 hfresh =>
    refine ⟨arr, ⟨hbase.opens h0 hfresh, locals_update ⟨?_, nofun⟩ fun u => ?_,
      hquiet nofun rfl rfl rfl⟩, fun _ _ => id⟩
    · rintro _ ⟨⟩
      exact List.mem_cons_self ..
    · exact ⟨fun e' he' => List.mem_cons_of_mem e ((hlocal u).opened e' he'), (hlocal u).stored⟩
  | move ev hpc hret hentry =>
    refine ⟨arr, ⟨hbase, locals_update ⟨?_, ?_⟩ hlocal, hquiet hpc rfl rfl rfl⟩, fun _ _ => id⟩
    · exact fun e he => hmine.opened e (hentry e he)
    · exact fun e he => absurd he (hret e)
  | malloc e a ha =>
    have hne : a ≠ s.shared.fdTable := by
      rintro rfl
      rw [hbase.table] at ha
      cases ha
    exact ⟨arr, ⟨hbase.put hne.symm _, locals_update ⟨hmine.opened, nofun⟩ fun u =>
      ⟨(hlocal u).opened, (hlocal u).stored⟩, hphase.malloc hold hapart hne⟩, fun _ _ => id⟩
  | insert e ev hstore =>
    have hopened : e ∈ s.shared.opened := hmine.opened e rfl
    obtain ⟨arr', harr, -, h0, hfit, rfl⟩ := store_some.mp hstore
    rw [hbase.table, Option.some.injEq] at harr
    subst harr
    have hkeep := hbase.insert_persists hopened
    refine ⟨arr.insert e, ⟨hbase.insert hopened, locals_update ⟨hmine.opened, ?_⟩ fun u =>
      (hlocal u).persists hkeep rfl, hphase.insert hold hapart h0⟩, hkeep⟩
    rintro _ ⟨⟩
    exact stored_insert h0 hfit
  | ret e ev =>
    refine ⟨arr, ⟨⟨hbase.table, hbase.cells, hbase.nonneg, hbase.unique, ?_⟩,
      locals_update ⟨nofun, nofun⟩ fun u => ⟨(hlocal u).opened, (hlocal u).stored⟩,
      hquiet nofun rfl rfl rfl⟩, fun _ _ => id⟩
    intro e' he'
    rcases List.mem_cons.mp he' with rfl | he'
    · exact hmine.stored e' rfl
    · exact hbase.returned e' he'

end Thread

/-- STEP: a step apart from the other threads keeps the invariant, the entries and the size. -/
theorem inv_step [DecidableEq σ] {s s' : Pool ι (Shared σ) (Pc σ)} {a : ι × Ev σ} {arr : Arr σ}
    (h : Inv s arr) (hc : Apart s a) (hs : step createStep s a = some s') :
    ∃ arr', Inv s' arr' ∧ Persists arr arr' ∧ s.shared.fdTableSize ≤ s'.shared.fdTableSize := by
  obtain ⟨t, ev⟩ := a
  obtain ⟨g, l, hstep, rfl⟩ := step_eq_some.mp hs
  by_cases hgrow : Growing (s.locals t)
  · exact h.grows hgrow hstep
  · have hq := quiet_step hgrow hstep
    obtain ⟨arr', hinv, hkeep⟩ := h.quiet hgrow hc hq
    exact ⟨arr', hinv, hkeep, hq.size.ge⟩

omit [DecidableEq ι] in
theorem inv_begin (maxFd : ℤ) :
    Inv (begin maxFd : Pool ι (Shared σ) (Pc σ)) ⟨List.replicate 8 .null, false⟩ := by
  refine ⟨⟨rfl, ?_, nofun, nofun, nofun⟩, fun _ => ⟨nofun, nofun⟩,
    .steady ⟨rfl, rfl⟩ fun _ => nofun⟩
  intro i c hc
  exact .inl (List.eq_of_mem_replicate (List.mem_of_getElem? hc))

/-- NO RETURNED DESCRIPTOR IS FORGOTTEN in a run whose threads keep apart: once nobody is in a call,
    each is the key of its own entry. -/
theorem returned_registered [DecidableEq σ] {maxFd : ℤ} {as : List (ι × Ev σ)}
    {s : Pool ι (Shared σ) (Pc σ)} (hm : Meets (step createStep) Apart (begin maxFd) as)
    (hr : run (step createStep) (begin maxFd) as = some s) (hout : ∀ u, s.locals u = .out)
    {e : FdElem σ} (he : e ∈ s.shared.returned) :
    load s.shared s.shared.fdTable e.fd.1 = some (.elem e) := by
  have hstep : ∀ (s : Pool ι (Shared σ) (Pc σ)) a t, (∃ arr, Inv s arr) → Apart s a → step createStep s a = some t →
      ∃ arr, Inv t arr := by
    rintro s a t ⟨arr, h⟩ hc hs
    obtain ⟨arr', h', -⟩ := inv_step h hc hs
    exact ⟨arr', h'⟩
  obtain ⟨arr, hbase, -, hphase⟩ := run_keeps hstep ⟨_, inv_begin maxFd⟩ hm hr
  obtain ⟨h0, hcell⟩ := hbase.returned e he
  cases hphase with
  | steady h hpc => exact load_some.mpr ⟨arr, hbase.table, h.1, h0, hcell⟩
  | growing t h hpc =>
    rw [hout t] at h
    exact h.elim

/-- Some statements of one thread. -/
def turns (t : Fin 2) (n : ℕ) : List (Fin 2 × Ev ℕ) := List.replicate n (t, .next)

/-- A thread is about to insert descriptor 3, another one to allocate room for descriptor 8. -/
def twoCalls : List (Fin 2 × Ev ℕ) :=
  (0, .call (3, 4) 50) :: turns 0 2 ++ (1, .call (5, 8) 51) :: turns 1 2

/-- The insertion comes when its slot has been copied. -/
def insertBehindCopy : List (Fin 2 × Ev ℕ) :=
  twoCalls ++ (1, .malloc (some 1)) :: (turns 1 9 ++ turns 0 2 ++ turns 1 15)

theorem insertBehindCopy_runs :
    (run (step createStep) (begin 1024) insertBehindCopy).isSome := by decide +kernel

/-- Descriptor 3 has been returned and has no entry. -/
theorem descriptor_forgotten : ¬ ∀ (as : List (Fin 2 × Ev ℕ)) (s : Pool (Fin 2) (Shared ℕ) (Pc ℕ)),
    run (step createStep) (begin 1024) as = some s → (∀ u, s.locals u = .out) →
      ∀ e ∈ s.shared.returned, load s.shared s.shared.fdTable e.fd.1 = some (.elem e) := by
  intro h
  have hlost := h insertBehindCopy _ (Option.some_get insertBehindCopy_runs).symm
    (by decide +kernel) ⟨(3, 4), 0, 0, 0, 0, 0, 50⟩ (by decide +kernel)
  exact absurd hlost (by decide +kernel)

/-- The insertion comes before its slot is copied. -/
def insertBeforeCopy : List (Fin 2 × Ev ℕ) :=
  twoCalls ++ (1, .malloc (some 1)) :: (turns 1 3 ++ turns 0 2 ++ turns 1 21)

theorem insertBeforeCopy_runs :
    (run (step createStep) (begin 1024) insertBeforeCopy).isSome := by decide +kernel

/-- Descriptor 3 is in the new array. -/
theorem returned_registered_apart :
    let s := (Option.get _ insertBeforeCopy_runs).shared
    s.fdTableSize = 16 ∧ load s s.fdTable 3 = some (.elem ⟨(3, 4), 0, 0, 0, 0, 0, 50⟩) :=
  ⟨by decide +kernel, returned_registered (e := ⟨(3, 4), 0, 0, 0, 0, 0, 50⟩)
    (by decide +kernel) (Option.some_get insertBeforeCopy_runs).symm (by decide +kernel)
    (by decide +kernel)⟩

end FdPicotcp.Creators
