import FdPicotcp.Lib.Transition
import FdPicotcp.Table.FdTable

/-! The table is a finite map from descriptors to entries, whatever the array behind it does.

    `Represents` connects the globals to a map: a lookup by descriptor reads it, a search by socket
    finds its smallest key. `MapStep` is what `fd_elem_create` and `fd_elem_delete` may do to the map
    and what they return. Every call of the model is such a step (`exec_simulates`), and after a run
    from the empty table the map is what the history of the calls says (`stored`). -/

namespace FdPicotcp.Map
open Transition FdTable

variable {σ : Type}

abbrev Table (σ : Type) := ℤ → Option (FdElem σ)

/-- The calls that change the table; the allocations of a create are the environment's. -/
inductive Op (σ : Type) where
  | create (alloc : Alloc) (fd : ℤ × ℤ) (s : σ)
  | delete (fd : ℤ)
  deriving DecidableEq

def exec (g : Globals σ) : Op σ → Except Fault (ℤ × Globals σ)
  | .create alloc fd s => fdElemCreate g alloc fd s
  | .delete fd => fdElemDelete g fd

def getFdElemFromFd (g : Globals σ) (fd : ℤ) : Except Fault (Option (FdElem σ)) := slot g fd

/-- The loop of `get_fd_elem_from_socket` from the `i`-th slot on, with the slots that are left. -/
def searchLoop [DecidableEq σ] (g : Globals σ) (s : σ) :
    ℕ → ℕ → Except Fault (Option (ℕ × FdElem σ))
  | 0, _ => .ok none
  | n + 1, i =>
    match slot g i with
    | .error f => .error f
    | .ok none => searchLoop g s n (i + 1)
    | .ok (some e) => if e.socket = s then .ok (some (i, e)) else searchLoop g s n (i + 1)

/-- `for (j = 0; j < FD_TABLE_SIZE; j++) new_table[j] = fd_table[j];` -/
def copyLoop (old new : List (Option (FdElem σ))) (size : ℕ) : List (Option (FdElem σ)) :=
  (List.range size).foldl (fun new j => new.set j old[j]?.join) new

/-- `for (j = FD_TABLE_SIZE; j < 2*FD_TABLE_SIZE; j++) new_table[j] = NULL;` -/
def clearLoop (new : List (Option (FdElem σ))) (size : ℕ) : List (Option (FdElem σ)) :=
  (List.range size).foldl (fun new j => new.set (size + j) none) new

/-- What the calls do to the map, and what they return. -/
inductive MapStep (m : Table σ) : Op σ → ℤ → Table σ → Prop
  | created (alloc : Alloc) (fd : ℤ × ℤ) (s : σ) (hfree : m fd.1 = none) :
    MapStep m (.create alloc fd s) fd.1 (Function.update m fd.1 (some ⟨fd, 0, 0, 0, 0, 0, s⟩))
  | refused (alloc : Alloc) (fd : ℤ × ℤ) (s : σ) : MapStep m (.create alloc fd s) (-1) m
  | deleted (fd : ℤ) (hkey : m fd ≠ none) : MapStep m (.delete fd) 0 (Function.update m fd none)
  | absent (fd : ℤ) (hkey : m fd = none) : MapStep m (.delete fd) (-1) m

/-- The smallest key that holds the socket. -/
def IsFirst (m : Table σ) (s : σ) : Option (ℕ × FdElem σ) → Prop
  | none => ∀ i e, m i = some e → e.socket ≠ s
  | some (j, e) => m j = some e ∧ e.socket = s ∧ ∀ i < (j : ℤ), ∀ e', m i = some e' → e'.socket ≠ s

/-- The array behind the globals implements the map. -/
structure Represents [DecidableEq σ] (g : Globals σ) (m : Table σ) : Prop where
  inside : ∀ fd, InTable g fd → getFdElemFromFd g fd = .ok (m fd)
  socket : ∀ fd, InTable g fd → getSocketFromFd g fd = .ok ((m fd).map (·.socket))
  outside : ∀ fd, ¬ InTable g fd → m fd = none
  key : ∀ i e, m i = some e → e.fd.1 = i
  search : ∀ s, ∃ o, getFdElemFromSocket g s = .ok o ∧ IsFirst m s o

/-- The history of a run, latest call first, with what the calls returned. -/
abbrev History (σ : Type) := List (Op σ × ℤ)

/-- The entry of the last successful create that no delete followed. -/
def stored : History σ → Table σ
  | [], _ => none
  | (.create _ fd s, ret) :: h, i =>
    if 0 ≤ ret ∧ i = fd.1 then some ⟨fd, 0, 0, 0, 0, 0, s⟩ else stored h i
  | (.delete fd, _) :: h, i => if i = fd then none else stored h i

/-- One call; an access outside the array ends the run. -/
def step (x : Globals σ × History σ) (op : Op σ) : Option (Globals σ × History σ) :=
  match exec x.1 op with
  | .ok (ret, g) => some (g, (op, ret) :: x.2)
  | .error _ => none

theorem slot_eq_entry {g : Globals σ} {i : ℤ} (h : InTable g i) : slot g i = .ok (entry g i) := by
  obtain ⟨e, he⟩ := slot_of_inTable h
  rw [entry, he]
  rfl

/-- The loop over the rest of the array finds the smallest key there. -/
theorem searchLoop_spec [DecidableEq σ] {g : Globals σ} (ht : g.fdTable.isSome) (s : σ) :
    ∀ n i : ℕ, (i + n : ℤ) = g.fdTableSize → (∀ k < (i : ℤ), ∀ e, entry g k = some e → e.socket ≠ s) →
      ∃ o, searchLoop g s n i = .ok o ∧ IsFirst (entry g) s o
  | 0, i, hi, hbefore => by
    refine ⟨none, rfl, ?_⟩
    intro k e he
    rcases lt_or_ge k i with hlt | hge
    · exact hbefore k hlt e he
    · rw [entry_of_not_inTable fun hin => absurd hin.2.2 (by omega)] at he
      cases he
  | n + 1, i, hi, hbefore => by
    have hslot := slot_eq_entry (g := g) (i := i) ⟨ht, by omega, by omega⟩
    have hnext : (∀ e, entry g i = some e → e.socket ≠ s) →
        ∀ k < ((i + 1 : ℕ) : ℤ), ∀ e, entry g k = some e → e.socket ≠ s := by
      intro hself k hk e he
      rcases lt_or_eq_of_le (Int.lt_add_one_iff.mp (by push_cast at hk; exact hk)) with hlt | rfl
      · exact hbefore k hlt e he
      · exact hself e he
    rw [searchLoop, hslot]
    cases he : entry g i with
    | none =>
      exact searchLoop_spec ht s n (i + 1) (by push_cast; omega) (hnext fun e h => by
        rw [he] at h; cases h)
    | some e =>
      by_cases hs : e.socket = s
      · exact ⟨some (i, e), if_pos hs, he, hs, hbefore⟩
      · simp only [if_neg hs]
        refine searchLoop_spec ht s n (i + 1) (by push_cast; omega) (hnext ?_)
        rintro e' h
        rw [he, Option.some.injEq] at h
        exact h ▸ hs

/-- The loop computes `get_fd_elem_from_socket`. -/
theorem searchLoop_eq [DecidableEq σ] {g : Globals σ} {l : List (Option (FdElem σ))}
    (hl : g.fdTable = some l) (s : σ) : ∀ n i : ℕ, i + n = l.length →
      searchLoop g s n i = .ok ((((l.drop i).zipIdx i).find? fun (e, _) =>
        e.any (·.socket = s)).bind fun (e, i) => e.map fun e => (i, e))
  | 0, i, hi => by rw [List.drop_eq_nil_of_le (by omega)]; rfl
  | n + 1, i, hi => by
    have hlen := g.length_eq l hl
    have hlt : i < l.length := by omega
    have hslot : slot g i = .ok l[i] := by
      rw [slot_some hl, if_pos (by omega), Int.toNat_natCast, List.getElem?_eq_getElem hlt]
      rfl
    have hrest := searchLoop_eq hl s n (i + 1) (by omega)
    rw [searchLoop, hslot, List.drop_eq_getElem_cons hlt, List.zipIdx_cons, List.find?_cons]
    cases he : l[i] with
    | none => exact hrest
    | some e =>
      by_cases hs : e.socket = s
      · simp only [hs, if_true, Option.any_some, decide_true]
        rfl
      · simp only [hs, if_false, Option.any_some, decide_false]
        exact hrest

theorem getFdElemFromSocket_spec [DecidableEq σ] {g : Globals σ} (ht : g.fdTable.isSome) (s : σ) :
    ∃ o, getFdElemFromSocket g s = .ok o ∧ IsFirst (entry g) s o := by
  obtain ⟨l, hl⟩ := Option.isSome_iff_exists.mp ht
  have hlen := g.length_eq l hl
  have heq : searchLoop g s l.length 0 = getFdElemFromSocket g s := by
    rw [searchLoop_eq hl s _ 0 (Nat.zero_add _), getFdElemFromSocket, hl]
    rfl
  rw [← heq]
  refine searchLoop_spec ht s _ 0 (by push_cast; omega) ?_
  intro k hk e he
  rw [entry_of_not_inTable fun hin => absurd hin.2.1 (by push_cast at hk; omega)] at he
  cases he

/-- The map that the array implements is the one read slot by slot. -/
theorem represents_entry [DecidableEq σ] {g : Globals σ} (ht : g.fdTable.isSome)
    (hkey : ∀ i e, entry g i = some e → e.fd.1 = i) : Represents g (entry g) where
  inside := fun _ hin => slot_eq_entry hin
  socket := fun _ hin => by rw [getSocketFromFd, slot_eq_entry hin]; rfl
  outside := fun _ hout => entry_of_not_inTable hout
  key := hkey
  search := getFdElemFromSocket_spec ht

theorem Represents.eq_entry [DecidableEq σ] {g : Globals σ} {m : Table σ} (h : Represents g m) :
    m = entry g := by
  funext i
  by_cases hin : InTable g i
  · have hread := h.inside i hin
    rw [getFdElemFromFd, slot_eq_entry hin, Except.ok.injEq] at hread
    exact hread.symm
  · rw [h.outside i hin, entry_of_not_inTable hin]

theorem allocated_of_represents [DecidableEq σ] {g : Globals σ} {m : Table σ} (s : σ)
    (h : Represents g m) : g.fdTable.isSome := by
  obtain ⟨o, ho, -⟩ := h.search s
  rw [getFdElemFromSocket] at ho
  cases hl : g.fdTable with
  | none => rw [hl] at ho; cases ho
  | some l => rfl

/-- The copy loop fills the first half of the new array. -/
theorem copyLoop_eq {old new : List (Option (FdElem σ))} {size : ℕ} (hold : size ≤ old.length)
    (hnew : size ≤ new.length) : copyLoop old new size = old.take size ++ new.drop size := by
  induction size with
  | zero => simp [copyLoop]
  | succ k ih =>
    have ih := ih (by omega) (by omega)
    rw [copyLoop] at ih ⊢
    rw [List.range_succ, List.foldl_append, ih, List.foldl_cons, List.foldl_nil,
      List.getElem?_eq_getElem (by omega), Option.join_some,
      List.set_append_right _ _ (by simp), List.length_take, min_eq_left (by omega), Nat.sub_self,
      List.drop_eq_getElem_cons (by omega), List.set_cons_zero,
      List.take_succ_eq_append_getElem (by omega), List.append_assoc, List.singleton_append]

/-- The clearing loop empties the second half. -/
theorem clearLoop_eq {new : List (Option (FdElem σ))} {size k : ℕ} (hk : size + k ≤ new.length) :
    (List.range k).foldl (fun new j => new.set (size + j) none) new =
      new.take size ++ (List.replicate k none ++ new.drop (size + k)) := by
  induction k with
  | zero => simp
  | succ k ih =>
    rw [List.range_succ, List.foldl_append, ih (by omega), List.foldl_cons,
      List.foldl_nil, List.set_append_right _ _ (by simp), List.length_take,
      min_eq_left (by omega), Nat.add_sub_cancel_left, List.set_append_right _ _ (by simp),
      List.length_replicate, Nat.sub_self, List.drop_eq_getElem_cons (by omega),
      List.set_cons_zero, List.replicate_succ', List.append_assoc, List.singleton_append,
      Nat.add_assoc]

theorem growTable_array {g g' : Globals σ} {ok : Bool} {old : List (Option (FdElem σ))}
    (ht : g.fdTable = some old) (h : growTable g ok = .ok (some g')) :
    g'.fdTable = some (old ++ List.replicate old.length none) := by
  obtain ⟨hsize, -⟩ := growTable_spec h
  have hlen := g.length_eq old ht
  rw [growTable.eq_def] at h
  simp only at h
  split at h
  · split at h
    · cases h
    · next l hl =>
      rw [ht, Option.some.injEq] at hl
      subst hl
      simp only [Except.ok.injEq, Option.some.injEq] at h
      subst h
      change some (old ++ List.replicate (CInt.toInt32 (2 * g.fdTableSize) - _).toNat none) = _
      rw [show CInt.toInt32 (2 * g.fdTableSize) = 2 * g.fdTableSize from hsize,
        show (2 * g.fdTableSize - g.fdTableSize).toNat = old.length by omega]
  · cases h

/-- GROWTH: whatever the fresh block holds, the two loops leave the array of `growTable` in it. -/
theorem growTable_loops {g g' : Globals σ} {ok : Bool} {old : List (Option (FdElem σ))}
    (ht : g.fdTable = some old) (h : growTable g ok = .ok (some g'))
    (block : List (Option (FdElem σ))) (hblock : block.length = 2 * old.length) :
    g'.fdTable = some (clearLoop (copyLoop old block old.length) old.length) := by
  have hcopy : copyLoop old block old.length = _ := copyLoop_eq le_rfl (by omega)
  rw [growTable_array ht h, hcopy, clearLoop,
    List.take_length, clearLoop_eq (by rw [List.length_append, List.length_drop]; omega),
    List.take_left' rfl, List.drop_eq_nil_of_le (by rw [List.length_append, List.length_drop]; omega),
    List.append_nil]

/-- The search has one result. -/
theorem IsFirst.unique {m : Table σ} {s : σ} {o o' : Option (ℕ × FdElem σ)} (h : IsFirst m s o)
    (h' : IsFirst m s o') : o = o' := by
  rcases o with _ | ⟨j, e⟩ <;> rcases o' with _ | ⟨k, e'⟩
  · rfl
  · exact absurd h'.2.1 (h k e' h'.1)
  · exact absurd h.2.1 (h' j e h.1)
  · obtain ⟨he, hs, hmin⟩ := h
    obtain ⟨he', hs', hmin'⟩ := h'
    have hjk : j = k := by
      rcases lt_trichotomy j k with hlt | heq | hgt
      · exact absurd hs (hmin' j (by omega) e he)
      · exact heq
      · exact absurd hs' (hmin k (by omega) e' he')
    subst hjk
    rw [he, Option.some.injEq] at he'
    rw [he']

/-- SIMULATION: what a call does to the array is a step of the map. -/
theorem exec_simulates [DecidableEq σ] {g g' : Globals σ} {m : Table σ} {op : Op σ} {ret : ℤ}
    (h : Represents g m) (hx : exec g op = .ok (ret, g')) :
    ∃ m', MapStep m op ret m' ∧ Represents g' m' := by
  obtain rfl := h.eq_entry
  cases op with
  | create alloc fd s =>
    have hcre : Created g g' fd s ret := fdElemCreate_created hx
    have ht := hcre.allocated (allocated_of_represents s h)
    rcases hcre.map with ⟨rfl, hsame⟩ | ⟨rfl, hfree, hnew, hother⟩
    · rw [← show entry g' = entry g from funext hsame]
      refine ⟨_, .refused alloc fd s, represents_entry ht ?_⟩
      intro i e he
      exact h.key i e (hsame i ▸ he)
    · have hmap : entry g' = Function.update (entry g) fd.1 (some ⟨fd, 0, 0, 0, 0, 0, s⟩) := by
        funext i
        by_cases hi : i = fd.1
        · rw [hi, Function.update_self, hnew]
        · rw [Function.update_of_ne hi, hother i hi]
      refine ⟨_, .created alloc fd s hfree, hmap ▸ represents_entry ht ?_⟩
      intro i e he
      by_cases hi : i = fd.1
      · rw [hi, hnew, Option.some.injEq] at he
        rw [hi, ← he]
      · exact h.key i e (hother i hi ▸ he)
  | delete fd =>
    obtain ⟨hgone, hother, hret, ht⟩ := fdElemDelete_entry hx
    have hmap : entry g' = Function.update (entry g) fd none := by
      funext i
      by_cases hi : i = fd
      · rw [hi, Function.update_self, hgone]
      · rw [Function.update_of_ne hi, hother i hi]
    have hrep : Represents g' (Function.update (entry g) fd none) := by
      refine hmap ▸ represents_entry ht ?_
      intro i e he
      by_cases hi : i = fd
      · rw [hi, hgone] at he
        cases he
      · exact h.key i e (hother i hi ▸ he)
    rcases hret with ⟨rfl, hkey⟩ | ⟨rfl, hkey⟩
    · exact ⟨_, .deleted fd hkey, hrep⟩
    · rw [show Function.update (entry g) fd none = entry g from
        Function.update_eq_self_iff.mpr hkey.symm] at hrep
      exact ⟨_, .absent fd hkey, hrep⟩

/-- What the calls do to the map is what the history says. -/
theorem stored_step [DecidableEq σ] {g g' : Globals σ} {h : History σ} {op : Op σ} {ret : ℤ}
    (hrep : Represents g (stored h)) (hx : exec g op = .ok (ret, g')) :
    Represents g' (stored ((op, ret) :: h)) := by
  obtain ⟨m', hstep, hrep'⟩ := exec_simulates hrep hx
  have hmap : m' = stored ((op, ret) :: h) := by
    funext i
    cases hstep with
    | created alloc fd s hfree =>
      have hpos : 0 ≤ fd.1 := by
        by_contra hneg
        have hout := hrep'.outside fd.1 fun hin => hneg hin.2.1
        rw [Function.update_self] at hout
        cases hout
      rw [stored, Function.update_apply]
      simp only [hpos, true_and]
    | refused alloc fd s => rw [stored, if_neg (by omega)]
    | deleted fd hkey => rw [stored, Function.update_apply]
    | absent fd hkey =>
      rw [stored]
      split
      · next hi => rw [hi, hkey]
      · rfl
  exact hmap ▸ hrep'

/-- What the table promises in a state: it is the map, the calls are steps of the map, and a growth
    changes no lookup of either kind. -/
structure Implements [DecidableEq σ] (g : Globals σ) (m : Table σ) : Prop where
  represents : Represents g m
  calls : ∀ op ret g', exec g op = .ok (ret, g') → ∃ m', MapStep m op ret m' ∧ Represents g' m'
  growth : ∀ ok g', growTable g ok = .ok (some g') → Represents g' m ∧
    (∀ fd, InTable g fd → getFdElemFromFd g' fd = getFdElemFromFd g fd) ∧
    ∀ s, getFdElemFromSocket g' s = getFdElemFromSocket g s

theorem represents_growTable [DecidableEq σ] {g g' : Globals σ} {m : Table σ} {ok : Bool}
    (h : Represents g m) (hg : growTable g ok = .ok (some g')) : Represents g' m := by
  obtain rfl := h.eq_entry
  have hsame : entry g' = entry g := funext (growTable_entry hg)
  rw [← hsame]
  exact represents_entry (growTable_spec hg).2.1 fun i e he => h.key i e (hsame ▸ he)

theorem Represents.implements [DecidableEq σ] {g : Globals σ} {m : Table σ} (h : Represents g m) :
    Implements g m where
  represents := h
  calls := fun _ _ _ => exec_simulates h
  growth := by
    intro ok g' hg
    have hrep := represents_growTable h hg
    refine ⟨hrep, ?_, ?_⟩
    · intro fd hin
      have hin' : InTable g' fd := by
        obtain ⟨hsize, hsome, -⟩ := growTable_spec hg
        exact ⟨hsome, hin.2.1, by have := hin.2.2; have := g.size_pos; omega⟩
      rw [hrep.inside fd hin', h.inside fd hin]
    · intro s
      obtain ⟨o, ho, hfirst⟩ := h.search s
      obtain ⟨o', ho', hfirst'⟩ := hrep.search s
      rw [ho, ho', hfirst'.unique hfirst]

theorem represents_init [DecidableEq σ] (g : Globals σ) (rlimCur : ℕ) :
    Represents (init g rlimCur) (stored []) := by
  have hempty : (entry (init g rlimCur)) = stored [] := funext (init_entry g rlimCur)
  rw [← hempty]
  refine represents_entry rfl ?_
  intro i e he
  rw [init_entry] at he
  cases he

/-- THE TABLE IS A MAP: after any run of creates and deletes from the empty table. -/
theorem table_is_map [DecidableEq σ] {rlimCur : ℕ} {ops : List (Op σ)} {g : Globals σ}
    {h : History σ} (hr : run step (init start rlimCur, []) ops = some (g, h)) :
    Implements g (stored h) := by
  have hstep : ∀ (x : Globals σ × History σ) op y, Represents x.1 (stored x.2) →
      step x op = some y → Represents y.1 (stored y.2) := by
    rintro ⟨g, h⟩ op ⟨g', h'⟩ hrep hs
    rw [step] at hs
    split at hs
    · next ret u hx =>
      rw [Option.some.injEq, Prod.mk.injEq] at hs
      obtain ⟨rfl, rfl⟩ := hs
      exact stored_step hrep hx
    · cases hs
  have hend : Represents g (stored h) := run_invariant hstep (represents_init start rlimCur) hr
  exact hend.implements

/-- Descriptor 3 is opened, 9 makes the table grow, 3 is closed and opened again. -/
def growReuse : List (Op ℕ) :=
  [.create .all (3, 4) 50, .create .all (9, 10) 60, .create .all (3, 5) 70, .delete 3,
    .create .all (3, 6) 60]

theorem growReuse_runs : (run step (init start 1024, []) growReuse).isSome := by decide +kernel

/-- The map afterwards has two keys for the socket 60, and the search finds the smaller. -/
theorem table_is_map_growReuse : Implements (Option.get _ growReuse_runs).1
    (stored (Option.get _ growReuse_runs).2) :=
  table_is_map (Option.some_get growReuse_runs).symm

end FdPicotcp.Map
