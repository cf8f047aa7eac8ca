import FdPicotcp.Table.Growth
import FdPicotcp.Table.Map
import Mathlib.Algebra.Order.Ring.Int
import Mathlib.Tactic.Linarith
import Mathlib.Tactic.Positivity

/-! Is the limit of the table the limit of the process?

    The kernel hands out every descriptor below `RLIMIT_NOFILE`. The table has 8 slots and doubles,
    and a doubling is refused when its result exceeds `MAX_FD`, the limit narrowed to an `int`. So the
    descriptors between the last doubling and the limit never fit, and only a limit that is itself
    reached by doublings refuses none (`limit_admits_iff`). -/

namespace FdPicotcp.Limit
open Transition CInt FdTable Growth Map

variable {σ : Type}

/-- Two descriptors that the kernel may hand out. -/
def Below (rlimCur : ℕ) (fd : ℤ × ℤ) : Prop :=
  (0 ≤ fd.1 ∧ fd.1 < rlimCur) ∧ 0 ≤ fd.2 ∧ fd.2 < rlimCur

def HandedOut (rlimCur : ℕ) : Op σ → Prop
  | .create _ fd _ => Below rlimCur fd
  | .delete _ => True

/-- The tables of a process with this limit. -/
def Reachable (rlimCur : ℕ) (g : Globals σ) : Prop :=
  ∃ ops h, (∀ op ∈ ops, HandedOut rlimCur op) ∧ run step (init start rlimCur, []) ops = some (g, h)

/-- With memory available the call is not refused for the size of the table, and the doubled size,
    where it is computed, fits in an `int`. -/
def Admits (g : Globals σ) (fd : ℤ × ℤ) (s : σ) : Prop :=
  fdElemCreate g .all fd s ≠ .ok (-1, g.fail .tableMaxSizeReached) ∧
    (g.fdTableSize ≤ fd.1 ∨ g.fdTableSize ≤ fd.2 → 2 * g.fdTableSize < 2 ^ 31)

/-- The sizes a table can have. -/
structure Sized (rlimCur : ℕ) (g : Globals σ) : Prop where
  allocated : g.fdTable.isSome
  maxFd : g.maxFd = toInt32 rlimCur
  power : ∃ k : ℕ, g.fdTableSize = 8 * 2 ^ k

theorem sized_init (rlimCur : ℕ) : Sized rlimCur (init start rlimCur : Globals σ) := by
  refine ⟨?_, ?_, 0, ?_⟩
  · simp [init]
  · rw [init]
  · rw [pow_zero, mul_one]
    rfl

theorem insertElem_size {g g' : Globals σ} {l : FdElem σ} {ret : ℤ}
    (h : insertElem g l = .ok (ret, g')) :
    g'.fdTableSize = g.fdTableSize ∧ g'.maxFd = g.maxFd := by
  by_cases hin : InTable g l.fd.1
  · rcases insertElem_spec hin with ⟨-, hrefused⟩ | ⟨-, u, hstored, hset⟩
    · rw [hrefused] at h
      cases h
      exact ⟨rfl, rfl⟩
    · obtain ⟨v, hv, hsize, hmax, -⟩ := setSlot_spec hin (some l)
      rw [hset] at hv
      rw [hstored] at h
      cases hv
      cases h
      exact ⟨hsize, hmax⟩
  · obtain ⟨f, hf⟩ := insertElem_fault hin
    rw [hf] at h
    cases h

/-- A create leaves the size of the table or doubles it. -/
theorem fdElemCreate_size {g g' : Globals σ} {alloc : Alloc} {fd : ℤ × ℤ} {s : σ} {ret : ℤ}
    (h : fdElemCreate g alloc fd s = .ok (ret, g')) :
    (g'.fdTableSize = g.fdTableSize ∨ g'.fdTableSize = 2 * g.fdTableSize) ∧ g'.maxFd = g.maxFd := by
  by_cases halloc : Allocated alloc
  · rw [fdElemCreate_of_allocated halloc] at h
    split at h
    · split at h
      · cases h
        exact ⟨.inl rfl, rfl⟩
      · cases hgrow : growTable g alloc.table with
        | error f => rw [hgrow] at h; cases h
        | ok o =>
          rw [hgrow] at h
          cases o with
          | none =>
            cases h
            exact ⟨.inl rfl, rfl⟩
          | some u =>
            obtain ⟨hsize, -, hmax, -⟩ := growTable_spec hgrow
            obtain ⟨hsize', hmax'⟩ := insertElem_size (g := u) h
            exact ⟨.inr (hsize'.trans hsize), hmax'.trans hmax⟩
    · obtain ⟨hsize, hmax⟩ := insertElem_size h
      exact ⟨.inl hsize, hmax⟩
  · rcases fdElemCreate_refused halloc g fd s with hr | ⟨e, -, hr⟩
    · rw [hr] at h
      cases h
      exact ⟨.inl rfl, rfl⟩
    · rw [hr] at h
      cases h
      exact ⟨.inl rfl, rfl⟩

theorem fdElemDelete_size {g g' : Globals σ} {fd ret : ℤ} (h : fdElemDelete g fd = .ok (ret, g')) :
    g'.fdTableSize = g.fdTableSize ∧ g'.maxFd = g.maxFd := by
  rw [fdElemDelete] at h
  cases hs : slot g fd with
  | error f => rw [hs] at h; cases h
  | ok o =>
    rw [hs] at h
    cases o with
    | none =>
      cases h
      exact ⟨rfl, rfl⟩
    | some e =>
      obtain ⟨u, hset, hsize, hmax, -⟩ := setSlot_spec (slot_ok_iff.mp ⟨_, hs⟩) none
      have h : (setSlot g fd none >>= fun g => .ok (0, g)) = .ok (ret, g') := h
      rw [hset] at h
      cases h
      exact ⟨hsize, hmax⟩

/-- STEP: a call doubles the size at most. -/
theorem Sized.exec {rlimCur : ℕ} {g g' : Globals σ} {op : Op σ} {ret : ℤ} (hz : Sized rlimCur g)
    (h : Map.exec g op = .ok (ret, g')) : Sized rlimCur g' := by
  obtain ⟨ht, hmax, k, hk⟩ := hz
  cases op with
  | create alloc fd s =>
    have halloc := (fdElemCreate_created h).allocated ht
    obtain ⟨hsize, hmax'⟩ := fdElemCreate_size h
    refine ⟨halloc, hmax'.trans hmax, ?_⟩
    rcases hsize with hsame | hdouble
    · exact ⟨k, hsame.trans hk⟩
    · exact ⟨k + 1, by rw [hdouble, hk, pow_succ]; ring⟩
  | delete fd =>
    obtain ⟨hsize, hmax'⟩ := fdElemDelete_size h
    exact ⟨(fdElemDelete_entry h).2.2.2, hmax'.trans hmax, k, hsize.trans hk⟩

/-- RUN: the size of every reachable table is 8 times a power of two. -/
theorem Reachable.sized {rlimCur : ℕ} {g : Globals σ} (h : Reachable rlimCur g) :
    Sized rlimCur g := by
  obtain ⟨ops, hist, -, hr⟩ := h
  refine run_invariant (I := fun x => Sized rlimCur x.1) ?_ (sized_init rlimCur) hr
  rintro ⟨g, h⟩ op ⟨g', h'⟩ hz hs
  rw [step] at hs
  split at hs
  · next ret u hx =>
    cases hs
    exact hz.exec hx
  · cases hs

theorem reachable_init (rlimCur : ℕ) : Reachable rlimCur (init start rlimCur : Globals σ) :=
  ⟨[], [], by simp, rfl⟩

theorem Reachable.create {rlimCur : ℕ} {g g' : Globals σ} {alloc : Alloc} {fd : ℤ × ℤ} {s : σ}
    {ret : ℤ} (h : Reachable rlimCur g) (hb : Below rlimCur fd)
    (hx : fdElemCreate g alloc fd s = .ok (ret, g')) : Reachable rlimCur g' := by
  obtain ⟨ops, hist, hops, hr⟩ := h
  refine ⟨ops ++ [.create alloc fd s], (.create alloc fd s, ret) :: hist, ?_,
    run_append.mpr ⟨_, hr, ?_⟩⟩
  · intro op hop
    rcases List.mem_append.mp hop with hold | hnew
    · exact hops op hold
    · rw [List.mem_singleton.mp hnew]
      exact hb
  · exact run_cons.mpr ⟨_, by rw [step, Map.exec, hx], rfl⟩

/-- A free slot inside the table is filled. -/
theorem insertElem_free {g : Globals σ} {fd : ℤ × ℤ} {s : σ} (hin : InTable g fd.1)
    (hfree : entry g fd.1 = none) : ∃ g', insertElem g ⟨fd, 0, 0, 0, 0, 0, s⟩ = .ok (fd.1, g') := by
  rcases insertElem_spec (l := ⟨fd, 0, 0, 0, 0, 0, s⟩) hin with ⟨⟨e, he⟩, -⟩ | ⟨-, g', hg', -⟩
  · rw [entry_eq_some.mpr he] at hfree
    cases hfree
  · exact ⟨g', hg'⟩

/-- What follows the growth is no refusal. -/
theorem insertElem_ne_refused {g g' : Globals σ} {fd : ℤ × ℤ} {s : σ} (h0 : 0 ≤ fd.1)
    (hfree : entry g fd.1 = none) :
    insertElem g ⟨fd, 0, 0, 0, 0, 0, s⟩ ≠ .ok (-1, g') := by
  by_cases hin : InTable g fd.1
  · obtain ⟨u, hu⟩ := insertElem_free (s := s) hin hfree
    rw [hu]
    simp only [ne_eq, Except.ok.injEq, Prod.mk.injEq, not_and]
    omega
  · obtain ⟨f, hf⟩ := insertElem_fault (l := ⟨fd, 0, 0, 0, 0, 0, s⟩) hin
    rw [hf]
    simp

/-- A pair is admitted exactly if it fits in the table as it is, or the doubled table is within
    `MAX_FD`. -/
theorem admits_iff {rlimCur : ℕ} {g : Globals σ} (hz : Sized rlimCur g) {fd : ℤ × ℤ} (h0 : 0 ≤ fd.1)
    (hfree : entry g fd.1 = none) (s : σ) : Admits g fd s ↔
      (fd.1 < g.fdTableSize ∧ fd.2 < g.fdTableSize) ∨ 2 * g.fdTableSize ≤ toInt32 rlimCur := by
  have hall : Allocated .all := by simp [Allocated, Alloc.all]
  have hpos := g.size_pos
  rw [Admits, fdElemCreate_of_allocated hall, hz.maxFd]
  by_cases hout : g.fdTableSize ≤ fd.1 ∨ g.fdTableSize ≤ fd.2
  · have hno : ¬ (fd.1 < g.fdTableSize ∧ fd.2 < g.fdTableSize) := by omega
    rw [if_pos hout, or_iff_right hno]
    by_cases hint : 2 * g.fdTableSize < 2 ^ 31
    · rw [toInt32_of_range (by omega) hint]
      by_cases hmax : toInt32 rlimCur < 2 * g.fdTableSize
      · rw [if_pos hmax]
        exact iff_of_false (fun h => h.1 rfl) (not_le.mpr hmax)
      · rw [if_neg hmax]
        refine iff_of_true ⟨?_, fun _ => hint⟩ (not_lt.mp hmax)
        rcases growTable_cases hz.allocated true with ⟨-, hno⟩ | ⟨u, hgrow, -⟩
        · rw [toInt32_of_range (by omega) hint] at hno
          exact absurd ⟨rfl, by omega⟩ hno
        · rw [show Alloc.all.table = true from rfl, hgrow]
          refine insertElem_ne_refused (g := u) h0 ?_
          rw [growTable_entry hgrow, hfree]
    · have hlt := (toInt32_range rlimCur).2
      exact iff_of_false (fun h => hint (h.2 hout)) (by omega)
  · rw [if_neg hout]
    refine iff_of_true ⟨insertElem_ne_refused h0 hfree, fun h => absurd h hout⟩ (.inl ?_)
    omega

/-- An admitted pair whose read end is the last slot doubles the table. -/
theorem create_doubles {rlimCur : ℕ} {g : Globals σ} (hz : Sized rlimCur g) {fd : ℤ × ℤ}
    (h0 : 0 ≤ fd.1) (hlt : fd.1 < g.fdTableSize) (hout : g.fdTableSize ≤ fd.2)
    (hfree : entry g fd.1 = none) (s : σ) (hadm : 2 * g.fdTableSize ≤ toInt32 rlimCur) :
    ∃ g', fdElemCreate g .all fd s = .ok (fd.1, g') ∧ g'.fdTableSize = 2 * g.fdTableSize := by
  have hall : Allocated .all := by simp [Allocated, Alloc.all]
  have hpos := g.size_pos
  have hrange := (toInt32_range rlimCur).2
  have hint : toInt32 (2 * g.fdTableSize) = 2 * g.fdTableSize :=
    toInt32_of_range (by omega) (by omega)
  rcases growTable_cases hz.allocated true with ⟨-, hno⟩ | ⟨u, hgrow, -⟩
  · rw [hint] at hno
    exact absurd ⟨rfl, by omega⟩ hno
  · obtain ⟨hsize, hsome, -⟩ := growTable_spec hgrow
    have hin : InTable u fd.1 := ⟨hsome, h0, by omega⟩
    obtain ⟨g', hg'⟩ := insertElem_free (s := s) hin (by rw [growTable_entry hgrow, hfree])
    refine ⟨g', ?_, (insertElem_size hg').1.trans hsize⟩
    rw [fdElemCreate_of_allocated hall, if_pos (.inr hout), if_neg (by rw [hz.maxFd, hint]; omega),
      show Alloc.all.table = true from rfl, hgrow]
    exact hg'

/-- If no pair is refused, every doubling below the limit is reached, with its last slot free. -/
theorem reaches_size {rlimCur : ℕ} {s : σ} (hall : ∀ g : Globals σ, Reachable rlimCur g →
      ∀ fd, Below rlimCur fd → entry g fd.1 = none → Admits g fd s) (k : ℕ)
    (hk : 8 * 2 ^ k < rlimCur) : (8 * 2 ^ (k + 1) : ℤ) ≤ toInt32 rlimCur ∧
      ∃ g : Globals σ, Reachable rlimCur g ∧ g.fdTableSize = 8 * 2 ^ k ∧
        ∀ i, (8 * 2 ^ k - 1 : ℤ) ≤ i → entry g i = none := by
  have hgrows : ∀ g : Globals σ, Reachable rlimCur g → ∀ j : ℕ, 8 * 2 ^ j < rlimCur →
      g.fdTableSize = 8 * 2 ^ j → entry g (8 * 2 ^ j - 1) = none →
      (8 * 2 ^ (j + 1) : ℤ) ≤ toInt32 rlimCur := by
    intro g hg j hj hsize hfree
    have hpos : (0 : ℤ) < 2 ^ j := by positivity
    have hlt : (8 * 2 ^ j : ℤ) < rlimCur := by exact_mod_cast hj
    have hadm := hall g hg (8 * 2 ^ j - 1, 8 * 2 ^ j)
      ⟨⟨by simp only; omega, by simp only; omega⟩, by simp only; omega, hlt⟩ hfree
    rw [admits_iff hg.sized (by simp only; omega) hfree, hsize] at hadm
    rcases hadm with ⟨-, hfit⟩ | hdouble
    · exact absurd hfit (lt_irrefl _)
    · rw [pow_succ]
      linarith
  induction k with
  | zero =>
    refine ⟨hgrows _ (reachable_init rlimCur) 0 hk rfl (init_entry ..), _, reachable_init rlimCur,
      rfl, fun i _ => init_entry ..⟩
  | succ k ih =>
    have hpos : (0 : ℤ) < 2 ^ k := by positivity
    have hk' : 8 * 2 ^ k < rlimCur := by rw [pow_succ] at hk; omega
    have hlt : (8 * 2 ^ k : ℤ) < rlimCur := by exact_mod_cast hk'
    obtain ⟨hadm, g, hg, hsize, hfree⟩ := ih hk'
    obtain ⟨fd, hfd⟩ : ∃ fd : ℤ × ℤ, fd = (8 * 2 ^ k - 1, 8 * 2 ^ k) := ⟨_, rfl⟩
    have hfst : fd.1 = 8 * 2 ^ k - 1 := by rw [hfd]
    have hsnd : fd.2 = 8 * 2 ^ k := by rw [hfd]
    obtain ⟨g', hx, hsize'⟩ := create_doubles hg.sized (by omega) (by omega) (by omega)
      (hfree fd.1 (by omega)) s (by rw [hsize]; rw [pow_succ] at hadm; linarith)
    have hg' : Reachable rlimCur g' := hg.create ⟨⟨by omega, by omega⟩, by omega, by omega⟩ hx
    have hsize'' : g'.fdTableSize = 8 * 2 ^ (k + 1) := by rw [hsize', hsize, pow_succ]; ring
    have hfree' : ∀ i, (8 * 2 ^ (k + 1) - 1 : ℤ) ≤ i → entry g' i = none := by
      intro i hi
      have hi' : (8 * 2 ^ k - 1 : ℤ) < i := by rw [pow_succ] at hi; omega
      rcases (fdElemCreate_created hx).map with ⟨-, hsame⟩ | ⟨-, -, -, hother⟩
      · rw [hsame, hfree i hi'.le]
      · rw [hother i (by omega), hfree i hi'.le]
    exact ⟨hgrows g' hg' (k + 1) hk hsize'' (hfree' _ le_rfl), g', hg', hsize'', hfree'⟩

/-- A limit that refuses no pair is at most the first size or a later one. -/
theorem limit_of_admits {rlimCur : ℕ} {s : σ} (hall : ∀ g : Globals σ, Reachable rlimCur g →
      ∀ fd, Below rlimCur fd → entry g fd.1 = none → Admits g fd s) :
    rlimCur ≤ 8 ∨ ∃ k, rlimCur = 8 * 2 ^ k ∧ rlimCur ≤ 2 ^ 30 := by
  rcases le_or_gt rlimCur 8 with hle | hgt
  · exact .inl hle
  · have hex : ∃ k, rlimCur ≤ 8 * 2 ^ k :=
      ⟨rlimCur, by have := Nat.lt_two_pow_self (n := rlimCur); omega⟩
    classical
    obtain ⟨k, hk⟩ : ∃ k, Nat.find hex = k + 1 := Nat.exists_eq_succ_of_ne_zero fun h0 => by
      have hspec := Nat.find_spec hex
      rw [h0] at hspec
      omega
    have hlo : 8 * 2 ^ k < rlimCur := not_le.mp (Nat.find_min hex (by omega))
    have hhi : rlimCur ≤ 8 * 2 ^ (k + 1) := hk ▸ Nat.find_spec hex
    obtain ⟨hadm, -⟩ := reaches_size hall k hlo
    have hhi' : (rlimCur : ℤ) ≤ 8 * 2 ^ (k + 1) := by exact_mod_cast hhi
    have hrange := (toInt32_range rlimCur).2
    have hself : toInt32 rlimCur = rlimCur := toInt32_of_range (by omega) (by omega)
    have heq : rlimCur = 8 * 2 ^ (k + 1) := by
      rw [hself] at hadm
      exact_mod_cast le_antisymm hhi' hadm
    refine .inr ⟨k + 1, heq, ?_⟩
    have hpow : (8 : ℕ) * 2 ^ (k + 1) = 2 ^ (k + 4) := by ring
    have hlt : rlimCur < 2 ^ 31 := by omega
    rw [heq, hpow] at hlt ⊢
    have hexp : k + 4 < 31 := (Nat.pow_lt_pow_iff_right (by norm_num)).mp hlt
    exact Nat.pow_le_pow_right (by norm_num) (by omega)

/-- A limit that is a size the table can have refuses nothing. -/
theorem admits_of_limit {rlimCur : ℕ} (h : rlimCur ≤ 8 ∨ ∃ k, rlimCur = 8 * 2 ^ k ∧ rlimCur ≤ 2 ^ 30)
    {g : Globals σ} (hz : Sized rlimCur g) {fd : ℤ × ℤ} (hb : Below rlimCur fd)
    (hfree : entry g fd.1 = none) (s : σ) : Admits g fd s := by
  obtain ⟨⟨h0, ha⟩, -, hw⟩ := hb
  obtain ⟨j, hj⟩ := hz.power
  rw [admits_iff hz h0 hfree]
  by_cases hfit : fd.1 < g.fdTableSize ∧ fd.2 < g.fdTableSize
  · exact .inl hfit
  · have hlt : (8 * 2 ^ j : ℤ) < rlimCur := by omega
    rcases h with h8 | ⟨k, hk, hle⟩
    · have hpos : (1 : ℤ) ≤ 2 ^ j := one_le_pow₀ (by norm_num)
      omega
    · refine .inr ?_
      have hlt' : 8 * 2 ^ j < 8 * 2 ^ k := hk ▸ by exact_mod_cast hlt
      have hjk : j < k := (Nat.pow_lt_pow_iff_right (a := 2) (by norm_num)).mp (by omega)
      have hpow : 2 ^ (j + 1) ≤ 2 ^ k := Nat.pow_le_pow_right (by norm_num) hjk
      have hle' : (rlimCur : ℤ) ≤ 2 ^ 30 := by exact_mod_cast hle
      rw [toInt32_of_range (by omega) (by omega), hj, hk]
      push_cast
      have hpow' : (2 ^ (j + 1) : ℤ) ≤ 2 ^ k := by exact_mod_cast hpow
      rw [pow_succ] at hpow'
      linarith

/-- THE LIMIT: a pair is refused exactly if it does not fit and the doubled table would exceed
    `MAX_FD`; a process sees no such pair exactly if its limit is at most the first size, or one of
    the later sizes up to 2^30. -/
theorem limit_admits_iff (rlimCur : ℕ) (s : σ) :
    (∀ (g : Globals σ) fd, Reachable rlimCur g → Below rlimCur fd → entry g fd.1 = none →
      (Admits g fd s ↔ (fd.1 < g.fdTableSize ∧ fd.2 < g.fdTableSize) ∨
        2 * g.fdTableSize ≤ toInt32 rlimCur)) ∧
    ((∀ (g : Globals σ) fd, Reachable rlimCur g → Below rlimCur fd → entry g fd.1 = none →
      Admits g fd s) ↔ rlimCur ≤ 8 ∨ ∃ k, rlimCur = 8 * 2 ^ k ∧ rlimCur ≤ 2 ^ 30) := by
  refine ⟨fun g fd hg hb hfree => admits_iff hg.sized hb.1.1 hfree s, ?_⟩
  constructor
  · intro h
    exact limit_of_admits fun g hg fd hb hfree => h g fd hg hb hfree
  · intro h g fd hg hb hfree
    exact admits_of_limit h hg.sized hb hfree s

/-- Without a limit (`RLIM_INFINITY`) `MAX_FD` is -1, and the table never grows. -/
theorem infinity_refuses : ¬ ∀ (rlimCur : ℕ) (g : Globals ℕ) (fd : ℤ × ℤ), rlimCur < 2 ^ 64 →
    Reachable rlimCur g → Below rlimCur fd → entry g fd.1 = none → Admits g fd 0 := by
  intro h
  have hb : Below (2 ^ 64 - 1) (7, 8) := by unfold Below; decide
  refine (h (2 ^ 64 - 1) _ (7, 8) (by decide) (reachable_init _) hb (init_entry ..)).1 ?_
  decide +kernel

/-- With a limit of 1024: the table after descriptors 7 and 8. -/
def grown : List (Op ℕ) := [.create .all (7, 8) 50]

theorem grown_runs : (run step (init start 1024, []) grown).isSome := by decide +kernel

theorem limit_admits_iff_grown : Admits (Option.get _ grown_runs).1 (15, 16) 0 := by
  refine (limit_admits_iff 1024 0).2.mpr (.inr ⟨7, by norm_num, by norm_num⟩) _ (15, 16) ?_ ?_ ?_
  · refine ⟨grown, _, ?_, (Option.some_get grown_runs).symm⟩
    simp [grown, HandedOut, Below]
  · unfold Below
    decide
  · decide +kernel

end FdPicotcp.Limit
