import FdPicotcp.Table.Creators

/-! Lookups while a thread is in `fd_elem_create`.

    The stack thread and other application threads read `FD_TABLE_SIZE` and `fd_table` anew at each
    turn of a search. While the table grows there are moments when the two do not belong together,
    and one when the array is freed; `Undisturbed` leaves these out. -/

namespace FdPicotcp.Lookups
open Transition Threads FdTable Creators

variable {σ κ : Type}

/-- The three lookups of `fd_picotcp.c`. -/
inductive Call (σ : Type) where
  | getFdElemFromSocket (s : σ)
  | getFdElemFromFd (fd : ℤ)
  | getSocketFromFd (fd : ℤ)
  deriving DecidableEq

/-- What a lookup returns. -/
inductive Result (σ : Type) where
  | elem (e : Option (FdElem σ))
  | socket (s : Option σ)
  deriving DecidableEq

/-- The next step of a lookup: a comparison with the size, or a read of `fd_table[i]`, for the test,
    for the socket in it, or to return it. -/
inductive At (σ : Type) where
  | size (s : σ) (i : ℕ)
  | slot (s : σ) (i : ℕ)
  | socket (s : σ) (i : ℕ)
  | entry (s : σ) (i : ℕ)
  | fdEntry (fd : ℤ)
  | fdSlot (fd : ℤ)
  | fdSocket (fd : ℤ)
  | done (c : Call σ) (r : Result σ)
  | fault
  deriving DecidableEq

/-- A lookup, with the table as it was when it began. -/
structure Look (σ : Type) where
  known : Arr σ
  pc : At σ
  deriving DecidableEq

/-- Where a lookup begins. -/
def Call.first : Call σ → At σ
  | .getFdElemFromSocket s => .size s 0
  | .getFdElemFromFd fd => .fdEntry fd
  | .getSocketFromFd fd => .fdSlot fd

/-- The slot that is read next. -/
def At.reads : At σ → Option ℤ
  | .slot _ i | .socket _ i | .entry _ i => some i
  | .fdEntry fd | .fdSlot fd | .fdSocket fd => some fd
  | .size _ _ | .done _ _ | .fault => none

/-- A descriptor is an index of the table. -/
def At.InTable (g : Shared σ) : At σ → Prop
  | .fdEntry fd | .fdSlot fd | .fdSocket fd => 0 ≤ fd ∧ fd < g.fdTableSize
  | _ => True

instance (g : Shared σ) (l : At σ) : Decidable (l.InTable g) := by
  unfold At.InTable
  split <;> infer_instance

/-- The old array is still `fd_table`'s after the size has doubled, and is freed before `fd_table` is
    switched: slot `i` cannot be read then. -/
def Readable (g : Shared σ) (i : ℤ) : Pc σ → Prop
  | .free .. => 2 * i < g.fdTableSize
  | .switch .. => False
  | _ => True

instance (g : Shared σ) (i : ℤ) : DecidablePred (Readable g i (σ := σ))
  | .free .. => inferInstanceAs (Decidable (_ < _))
  | .switch .. => isFalse id
  | .out | .sizeTest _ | .maxTest _ | .malloc _ | .copy .. | .clear .. | .size .. | .slotTest _
  | .insert _ | .ret _ | .fault => isTrue trivial

/-- A lookup reads what is there now. -/
def lookStep [DecidableEq σ] (g : Shared σ) : At σ → At σ
  | .size s i =>
    if i < g.fdTableSize then .slot s i else .done (.getFdElemFromSocket s) (.elem none)
  | .slot s i =>
    match load g g.fdTable i with
    | some (.elem _) => .socket s i
    | some .null => .size s (i + 1)
    | _ => .fault
  | .socket s i =>
    match load g g.fdTable i with
    | some (.elem e) => if e.socket = s then .entry s i else .size s (i + 1)
    | _ => .fault
  | .entry s i =>
    match load g g.fdTable i with
    | some (.elem e) => .done (.getFdElemFromSocket s) (.elem (some e))
    | some .null => .done (.getFdElemFromSocket s) (.elem none)
    | _ => .fault
  | .fdEntry fd =>
    match load g g.fdTable fd with
    | some (.elem e) => .done (.getFdElemFromFd fd) (.elem (some e))
    | some .null => .done (.getFdElemFromFd fd) (.elem none)
    | _ => .fault
  | .fdSlot fd =>
    match load g g.fdTable fd with
    | some (.elem _) => .fdSocket fd
    | some .null => .done (.getSocketFromFd fd) (.socket none)
    | _ => .fault
  | .fdSocket fd =>
    match load g g.fdTable fd with
    | some (.elem e) => .done (.getSocketFromFd fd) (.socket (some e.socket))
    | _ => .fault
  | .done c r => .done c r
  | .fault => .fault

/-- One thread creates descriptors, any number look them up. -/
structure World (κ σ : Type) where
  creator : Pool Unit (Shared σ) (Pc σ)
  looks : κ → Option (Look σ)

/-- Who moves. -/
inductive Act (κ σ : Type) where
  | creator (ev : Ev σ)
  | call (k : κ) (c : Call σ)
  | look (k : κ)
  deriving DecidableEq

variable [DecidableEq κ]

/-- A step of the thread that creates, or of a lookup. -/
def step [DecidableEq σ] (w : World κ σ) : Act κ σ → Option (World κ σ)
  | .creator ev => (Threads.step createStep w.creator ((), ev)).map fun p => { w with creator := p }
  | .call k c => (w.creator.shared.arrays w.creator.shared.fdTable).map fun arr =>
    { w with looks := Function.update w.looks k (some ⟨arr, c.first⟩) }
  | .look k => (w.looks k).map fun l =>
    { w with looks := Function.update w.looks k (some ⟨l.known, lookStep w.creator.shared l.pc⟩) }

/-- After `init`, with no lookup begun. -/
def begin (maxFd : ℤ) : World κ σ := ⟨Creators.begin maxFd, fun _ => none⟩

/-- The slot that a lookup reads next is readable, and a descriptor is an index of the table. -/
def Undisturbed (w : World κ σ) : Act κ σ → Prop
  | .look k => ∀ l ∈ w.looks k, l.pc.InTable w.creator.shared ∧
    ∀ i ∈ l.pc.reads, Readable w.creator.shared i (w.creator.locals ())
  | _ => True

instance (w : World κ σ) (a : Act κ σ) : Decidable (Undisturbed w a) := by
  unfold Undisturbed
  split <;> infer_instance

/-- What a lookup returns for an entry that was there when it began. -/
def Right (known : Arr σ) : Call σ → Result σ → Prop
  | .getFdElemFromSocket s, r => ∀ e, .elem e ∈ known.cells → e.socket = s → r = .elem (some e)
  | .getFdElemFromFd fd, r => ∀ e, .elem e ∈ known.cells → e.fd.1 = fd → r = .elem (some e)
  | .getSocketFromFd fd, r =>
    ∀ e, .elem e ∈ known.cells → e.fd.1 = fd → r = .socket (some e.socket)

/-- The search has passed no entry for the socket that was there when it began. -/
def Passed (known : Arr σ) (s : σ) (i : ℕ) : Prop :=
  ∀ k, k < i → ∀ e, known.cells[k]? = some (.elem e) → e.socket ≠ s

/-- What a lookup has found so far. -/
def PcOk (g : Shared σ) (arr known : Arr σ) : At σ → Prop
  | .size s i => Passed known s i
  | .slot s i => Passed known s i ∧ i < g.fdTableSize
  | .socket s i => Passed known s i ∧ i < g.fdTableSize ∧ ∃ e, arr.cells[i]? = some (.elem e)
  | .entry s i => i < g.fdTableSize ∧ ∃ e, arr.cells[i]? = some (.elem e) ∧ e.socket = s
  | .fdSocket fd => ∃ e, arr.cells[fd.toNat]? = some (.elem e)
  | .done c r => Right known c r
  | .fault => False
  | .fdEntry _ | .fdSlot _ => True

/-- The steps of the creating thread take nothing away from a lookup. -/
theorem PcOk.persists {g g' : Shared σ} {arr arr' known : Arr σ} {l : At σ}
    (h : PcOk g arr known l) (hp : Persists arr arr') (hsize : g.fdTableSize ≤ g'.fdTableSize) :
    PcOk g' arr' known l := by
  cases l with
  | slot s i => exact ⟨h.1, h.2.trans_le hsize⟩
  | socket s i =>
    obtain ⟨hpass, hi, e, he⟩ := h
    exact ⟨hpass, hi.trans_le hsize, e, hp i e he⟩
  | entry s i =>
    obtain ⟨hi, e, he, hs⟩ := h
    exact ⟨hi.trans_le hsize, e, hp i e he, hs⟩
  | fdSocket fd =>
    obtain ⟨e, he⟩ := h
    exact ⟨e, hp _ e he⟩
  | _ => exact h

variable {w : Pool Unit (Shared σ) (Pc σ)} {arr : Arr σ}

/-- A readable slot of the table is read from an array that is not freed. -/
theorem load_readable (h : Inv w arr) {i : ℤ} (h0 : 0 ≤ i) (hi : i < w.shared.fdTableSize)
    (hread : Readable w.shared i (w.locals ())) : ∃ c, load w.shared w.shared.fdTable i = some c ∧
      arr.cells[i.toNat]? = some c ∧ (c = .null ∨ ∃ e ∈ w.shared.opened, c = .elem e ∧ e.fd.1 = i) := by
  have hlive : arr.freed = false ∧ i.toNat < arr.cells.length := by
    cases h.phase with
    | steady hs hpc => exact ⟨hs.1, by have := hs.2; omega⟩
    | growing t hg hpc =>
      generalize w.locals () = m at hg hread
      cases m with
      | copy l new j | clear l new j | size l new =>
        obtain ⟨hsize, hlive, -⟩ := hg
        exact ⟨hlive, by omega⟩
      | free l new =>
        obtain ⟨hsize, hlive, -⟩ := hg
        have hhalf : 2 * i < w.shared.fdTableSize := hread
        exact ⟨hlive, by omega⟩
      | switch l new => exact hread.elim
      | _ => exact hg.elim
  have hget := List.getElem?_eq_getElem hlive.2
  refine ⟨_, load_some.mpr ⟨arr, h.base.table, hlive.1, h0, hget⟩, hget, ?_⟩
  refine (h.base.cells _ _ hget).imp_right ?_
  rintro ⟨e, he, hc, hkey⟩
  exact ⟨e, he, hc, by omega⟩

theorem length_le_size (h : Inv w arr) : arr.cells.length ≤ w.shared.fdTableSize := by
  cases h.phase with
  | steady hs hpc => exact hs.2.ge
  | growing t hg hpc =>
    generalize w.locals t = m at hg
    cases m with
    | copy l new j | clear l new j | size l new => exact hg.1.ge
    | free l new | switch l new =>
      have hsize := hg.1
      omega
    | _ => exact hg.elim

/-- What is in the table is at its own key, and alone with its socket. -/
theorem elem_opened (h : Inv w arr) {i : ℕ} {e : FdElem σ} (he : arr.cells[i]? = some (.elem e)) :
    e ∈ w.shared.opened ∧ e.fd.1 = i := by
  rcases h.base.cells i _ he with hnull | ⟨e', he', heq, hkey⟩
  · cases hnull
  · rw [Cell.elem.injEq] at heq
    subst heq
    exact ⟨he', hkey⟩

/-- An entry that was there when the lookup began is still at its key. -/
theorem known_at_key (h : Inv w arr) {known : Arr σ} (hp : Persists known arr) {e : FdElem σ}
    (he : .elem e ∈ known.cells) : arr.cells[e.fd.1.toNat]? = some (.elem e) := by
  obtain ⟨j, hj⟩ := List.getElem?_of_mem he
  have hkey := (elem_opened h (hp j e hj)).2
  rw [show e.fd.1.toNat = j by omega]
  exact hp j e hj

theorem Passed.succ {known : Arr σ} {s : σ} {i : ℕ} (h : Passed known s i)
    (hi : ∀ e, known.cells[i]? = some (.elem e) → e.socket ≠ s) : Passed known s (i + 1) := by
  intro k hk
  rcases Nat.lt_succ_iff_lt_or_eq.mp hk with hlt | rfl
  · exact h k hlt
  · exact hi

variable [DecidableEq σ]

/-- LOOKUP: a step that reads a readable slot finds what it should. -/
theorem look_step (h : Inv w arr) {known : Arr σ} (hp : Persists known arr) {l : At σ}
    (hok : PcOk w.shared arr known l) (hin : l.InTable w.shared)
    (hread : ∀ i ∈ l.reads, Readable w.shared i (w.locals ())) :
    PcOk w.shared arr known (lookStep w.shared l) := by
  cases l with
  | size s i =>
    rw [lookStep]
    split
    · next hi => exact ⟨hok, hi⟩
    · next hi =>
      intro e he hs
      obtain ⟨j, hj⟩ := List.getElem?_of_mem he
      obtain ⟨hlt, -⟩ := List.getElem?_eq_some_iff.mp (hp j e hj)
      have hle := length_le_size h
      exact absurd hs (hok j (by omega) e hj)
  | slot s i =>
    obtain ⟨hpass, hi⟩ := hok
    obtain ⟨c, hload, hcell, hc⟩ := load_readable h (Int.natCast_nonneg i) (by omega) (hread i rfl)
    rw [Int.toNat_natCast] at hcell
    rw [lookStep, hload]
    rcases hc with rfl | ⟨e, he, rfl, hkey⟩
    · refine hpass.succ fun e he => ?_
      rw [hp i e he, Option.some.injEq] at hcell
      cases hcell
    · exact ⟨hpass, hi, e, hcell⟩
  | socket s i =>
    obtain ⟨hpass, hi, e', he'⟩ := hok
    obtain ⟨c, hload, hcell, -⟩ := load_readable h (Int.natCast_nonneg i) (by omega) (hread i rfl)
    rw [Int.toNat_natCast, he', Option.some.injEq] at hcell
    subst hcell
    rw [lookStep, hload]
    simp only
    split
    · next hs => exact ⟨hi, e', he', hs⟩
    · next hs =>
      refine hpass.succ fun e he => ?_
      rw [hp i e he, Option.some.injEq, Cell.elem.injEq] at he'
      exact he' ▸ hs
  | entry s i =>
    obtain ⟨hi, e', he', hs⟩ := hok
    obtain ⟨c, hload, hcell, -⟩ := load_readable h (Int.natCast_nonneg i) (by omega) (hread i rfl)
    rw [Int.toNat_natCast, he', Option.some.injEq] at hcell
    subst hcell
    rw [lookStep, hload]
    intro e he hs'
    obtain ⟨j, hj⟩ := List.getElem?_of_mem he
    have hsame := h.base.unique e (elem_opened h (hp j e hj)).1 e' (elem_opened h he').1
      (.inr (hs'.trans hs.symm))
    rw [hsame]
  | fdEntry fd =>
    obtain ⟨c, hload, hcell, hc⟩ := load_readable h hin.1 hin.2 (hread fd rfl)
    rw [lookStep, hload]
    rcases hc with rfl | ⟨e', he', rfl, hkey'⟩
    · rintro e he rfl
      rw [known_at_key h hp he, Option.some.injEq] at hcell
      cases hcell
    · rintro e he rfl
      rw [known_at_key h hp he, Option.some.injEq, Cell.elem.injEq] at hcell
      rw [hcell]
  | fdSlot fd =>
    obtain ⟨c, hload, hcell, hc⟩ := load_readable h hin.1 hin.2 (hread fd rfl)
    rw [lookStep, hload]
    rcases hc with rfl | ⟨e', he', rfl, hkey'⟩
    · rintro e he rfl
      rw [known_at_key h hp he, Option.some.injEq] at hcell
      cases hcell
    · exact ⟨e', hcell⟩
  | fdSocket fd =>
    obtain ⟨e', he'⟩ := hok
    obtain ⟨c, hload, hcell, -⟩ := load_readable h hin.1 hin.2 (hread fd rfl)
    rw [he', Option.some.injEq] at hcell
    subst hcell
    rw [lookStep, hload]
    rintro e he rfl
    rw [known_at_key h hp he, Option.some.injEq, Cell.elem.injEq] at he'
    rw [he']
  | done c r => exact hok
  | fault => exact hok

/-- Every lookup has found what it should so far. -/
def Sound (w : World κ σ) : Prop :=
  ∃ arr, Inv w.creator arr ∧
    ∀ k l, w.looks k = some l → Persists l.known arr ∧ PcOk w.creator.shared arr l.known l.pc

theorem sound_step {w w' : World κ σ} {a : Act κ σ} (h : Sound w) (hc : Undisturbed w a)
    (hs : step w a = some w') : Sound w' := by
  obtain ⟨arr, hinv, hlooks⟩ := h
  cases a with
  | creator ev =>
    simp only [step, Option.map_eq_some_iff] at hs
    obtain ⟨p, hp, rfl⟩ := hs
    -- there is no other creating thread to keep apart from
    have hapart : Apart w.creator ((), ev) := fun u hu => absurd rfl hu
    obtain ⟨arr', hinv', hkeep, hsize⟩ := inv_step hinv hapart hp
    refine ⟨arr', hinv', ?_⟩
    intro k l hl
    obtain ⟨hknown, hok⟩ := hlooks k l hl
    exact ⟨fun i e he => hkeep i e (hknown i e he), hok.persists hkeep hsize⟩
  | call k c =>
    simp only [step, hinv.base.table, Option.map_some, Option.some.injEq] at hs
    subst hs
    refine ⟨arr, hinv, ?_⟩
    intro j l hl
    rcases eq_or_ne j k with rfl | hne
    · simp only [Function.update_self, Option.some.injEq] at hl
      subst hl
      refine ⟨fun _ _ => id, ?_⟩
      cases c with
      | getFdElemFromSocket s => exact fun i hi => absurd hi (Nat.not_lt_zero i)
      | getFdElemFromFd fd => trivial
      | getSocketFromFd fd => trivial
    · simp only [Function.update_of_ne hne] at hl
      exact hlooks j l hl
  | look k =>
    simp only [step, Option.map_eq_some_iff] at hs
    obtain ⟨l, hl, rfl⟩ := hs
    obtain ⟨hin, hread⟩ := hc l hl
    refine ⟨arr, hinv, ?_⟩
    intro j m hm
    rcases eq_or_ne j k with rfl | hne
    · simp only [Function.update_self, Option.some.injEq] at hm
      subst hm
      obtain ⟨hknown, hok⟩ := hlooks j l hl
      exact ⟨hknown, look_step hinv hknown hok hin hread⟩
    · simp only [Function.update_of_ne hne] at hm
      exact hlooks j m hm

omit [DecidableEq κ] [DecidableEq σ] in
theorem sound_begin (maxFd : ℤ) : Sound (begin maxFd : World κ σ) :=
  ⟨_, inv_begin maxFd, nofun⟩

/-- LOOKUPS SURVIVE GROWTH in a run in which they read readable slots only: none touches a slot
    outside the array or of a freed one, and each returns the entry that was there throughout. -/
theorem lookups_survive {maxFd : ℤ} {as : List (Act κ σ)} {w : World κ σ}
    (hm : Meets step Undisturbed (begin maxFd) as) (hr : run step (begin maxFd) as = some w) {k : κ}
    {l : Look σ} (hl : w.looks k = some l) :
    l.pc ≠ .fault ∧ ∀ c r, l.pc = .done c r → Right l.known c r := by
  obtain ⟨arr, hinv, hlooks⟩ := run_keeps (fun _ _ _ h hc hs => sound_step h hc hs)
    (sound_begin maxFd) hm hr
  obtain ⟨hknown, hok⟩ := hlooks k l hl
  refine ⟨?_, ?_⟩
  · intro hpc
    rw [hpc] at hok
    exact hok
  · intro c r hpc
    rw [hpc] at hok
    exact hok

/-- The table is about to be freed, its size doubled already. -/
def growing : List (Act Unit ℕ) :=
  [.creator (.call (7, 8) 50), .creator .next, .creator .next, .creator (.malloc (some 1))] ++
    List.replicate 19 (.creator .next)

/-- A search for another socket then goes on to slot 8 of the old array. -/
def searchOnward : List (Act Unit ℕ) :=
  growing ++ .call () (.getFdElemFromSocket 9) :: List.replicate 18 (.look ())

theorem searchOnward_runs : (run step (begin 1024) searchOnward).isSome := by decide +kernel

theorem search_faults : ¬ ∀ (as : List (Act Unit ℕ)) (w : World Unit ℕ) (l : Look ℕ),
    run step (begin 1024) as = some w → w.looks () = some l → l.pc ≠ .fault := by
  intro h
  have hpc : ((Option.get _ searchOnward_runs).looks ()).map (·.pc) = some .fault := by
    decide +kernel
  obtain ⟨l, hl, hfault⟩ := Option.map_eq_some_iff.mp hpc
  exact h searchOnward _ l (Option.some_get searchOnward_runs).symm hl hfault

/-- Descriptor 3 is searched for by its socket while the slots are being copied for another. -/
def searchWhileCopying : List (Act Unit ℕ) :=
  [.creator (.call (3, 4) 50), .creator .next, .creator .next, .creator .next, .creator .next,
    .creator (.call (7, 8) 51), .creator .next, .creator .next, .creator (.malloc (some 1)),
    .call () (.getFdElemFromSocket 50), .creator .next] ++ List.replicate 10 (.look ())

theorem searchWhileCopying_runs : (run step (begin 1024) searchWhileCopying).isSome := by
  decide +kernel

theorem lookups_survive_copying :
    ((Option.get _ searchWhileCopying_runs).looks ()).map (·.pc) =
        some (.done (.getFdElemFromSocket 50) (.elem (some ⟨(3, 4), 0, 0, 0, 0, 0, 50⟩))) ∧
      ∀ l, (Option.get _ searchWhileCopying_runs).looks () = some l →
        l.pc ≠ .fault ∧ ∀ c r, l.pc = .done c r → Right l.known c r :=
  ⟨by decide +kernel, fun _ => lookups_survive (by decide +kernel)
    (Option.some_get searchWhileCopying_runs).symm⟩

end FdPicotcp.Lookups
