import FdPicotcp.Lib.BinaryHeap
import Mathlib.Order.Lattice

/-! The heap of `include/heap.h` (`DECLARE_HEAP`).

    `top` points to a block of `cap` elements, of which the first is not used; `size` decides when the
    block is replaced by one that is one element longer. The elements are ordered by `orderby`. -/

namespace FdPicotcp.DeclareHeap
open BinaryHeap

structure Heap (α : Type*) where
  size : ℕ
  n : ℕ
  cap : ℕ
  top : ℕ → α

variable {α κ : Type*} [LinearOrder κ] (orderby : α → κ)

/-- `heap_init` -/
def heapInit [Inhabited α] : Heap α where
  size := 0
  n := 0
  cap := 0
  top := fun _ => default

/-- The loop of `heap_insert`: elements that come after the new one move down. -/
def insertLoop (el : α) : ℕ → ℕ → (ℕ → α) → ℕ × (ℕ → α)
  | 0, i, top => (i, top)
  | k + 1, i, top =>
    if 1 < i ∧ orderby el < orderby (top (i / 2)) then
      insertLoop el k (i / 2) (Function.update top i (top (i / 2)))
    else (i, top)

/-- The block that `heap_insert` works on: what it copies into a new one is in front. -/
def grow [Inhabited α] (h : Heap α) : Heap α :=
  if h.size ≤ h.n + 1 then
    { size := h.size + 1
      n := h.n + 1
      cap := h.n + 2
      top := fun i => if i < h.n + 1 ∧ 0 < h.cap then h.top i else default }
  else { h with n := h.n + 1 }

/-- `alloc` is that there is memory for a new block. -/
def heapInsert [Inhabited α] (h : Heap α) (el : α) (alloc : Bool) : ℤ × Heap α :=
  if h.size ≤ h.n + 1 ∧ alloc = false then (-1, h)
  else
    let h := grow h
    if h.n = 1 then (0, { h with top := Function.update h.top 1 el })
    else
      let (i, top) := insertLoop orderby el h.n h.n h.top
      (0, { h with top := Function.update top i el })

/-- The loop of `heap_peek`: elements that come before `last` move up. -/
def peekLoop (n : ℕ) (last : α) : ℕ → ℕ → (ℕ → α) → ℕ × (ℕ → α)
  | 0, i, top => (i, top)
  | k + 1, i, top =>
    if i * 2 ≤ n then
      let child := 2 * i
      let child := if child ≠ n ∧ orderby (top (child + 1)) < orderby (top child) then child + 1
        else child
      if orderby (top child) < orderby last then
        peekLoop n last k child (Function.update top i (top child))
      else (i, top)
    else (i, top)

/-- The first element and the heap without it; -1 for an empty heap. -/
def heapPeek (h : Heap α) : Option (α × Heap α) :=
  if h.n = 0 then none
  else
    let last := h.top h.n
    let (i, top) := peekLoop orderby (h.n - 1) last (h.n - 1) 1 h.top
    some (h.top 1, { h with n := h.n - 1, top := Function.update top i last })

def heapFirst (h : Heap α) : Option α := if h.n = 0 then none else some (h.top 1)

/-- In order and inside the block. -/
structure Wf (h : Heap α) : Prop where
  ordered : Ordered orderby h.n h.top
  size_le : h.size ≤ h.cap
  n_lt : h.n = 0 ∨ h.n < h.cap

variable {orderby} {el last : α} {k i n : ℕ} {top : ℕ → α} {h : Heap α}

theorem wf_heapInit [Inhabited α] : Wf orderby (heapInit : Heap α) := by
  refine ⟨?_, le_rfl, .inl rfl⟩
  intro j hj hn
  have : (heapInit : Heap α).n = 0 := rfl
  omega

/-- LOOP: the new element finds its place, and it does not pass a first element that is not after it. -/
theorem insertLoop_spec (hk : i ≤ k + 1) (hi : 1 ≤ i) (hin : i ≤ n)
    (hup : UpHole orderby n (Function.update top i el) i) :
    let (j, t) := insertLoop orderby el k i top
    Ordered orderby n (Function.update t j el) ∧
      contents n (Function.update t j el) = contents n (Function.update top i el) ∧
      (1 < i → orderby (top 1) ≤ orderby el → Function.update t j el 1 = top 1) := by
  induction k generalizing i top with
  | zero =>
    refine ⟨hup.done fun h2 => ?_, rfl, fun h1 => ?_⟩
    · omega
    · omega
  | succ k ih =>
    rw [insertLoop]
    by_cases hgo : 1 < i ∧ orderby el < orderby (top (i / 2))
    · obtain ⟨hi2, hlt⟩ := hgo
      have hne : i ≠ i / 2 := by omega
      have hmove := update_move (g := top) (x := el) hne
      have hstep := hup.move (by omega) hin (by
        rw [Function.update_self, Function.update_of_ne hne.symm]
        exact hlt)
      rw [← hmove] at hstep
      rw [if_pos ⟨hi2, hlt⟩]
      obtain ⟨hord, hcont, hroot⟩ := ih (by omega) (by omega) (by omega) hstep
      refine ⟨hord, ?_, ?_⟩
      · rw [hcont, hmove, contents_swap hi hin (by omega) (by omega)]
      · intro _ hle
        have hi3 : 1 < i / 2 := by
          by_contra hnot
          have hone : i / 2 = 1 := by omega
          rw [hone] at hlt
          exact absurd hle hlt.not_ge
        have hone : Function.update top i (top (i / 2)) 1 = top 1 :=
          Function.update_of_ne (by omega) ..
        rw [hroot hi3 (by rw [hone]; exact hle), hone]
    · rw [if_neg hgo]
      refine ⟨hup.done fun h2 => ?_, rfl, fun h1 _ => Function.update_of_ne (by omega) ..⟩
      rw [Function.update_self, Function.update_of_ne (by omega)]
      rw [not_and, not_lt] at hgo
      exact hgo (by omega)

theorem grow_spec [Inhabited α] (hw : Wf orderby h) :
    (grow h).n = h.n + 1 ∧ (grow h).size ≤ (grow h).cap ∧ (grow h).n < (grow h).cap ∧
      ∀ i, 1 ≤ i → i ≤ h.n → (grow h).top i = h.top i := by
  have hsize := hw.size_le
  have hn := hw.n_lt
  rw [grow]
  split
  · refine ⟨rfl, ?_, ?_, ?_⟩
    · simp only
      omega
    · simp only
      omega
    · intro i hi hin
      exact if_pos ⟨by omega, by omega⟩
  · refine ⟨rfl, hsize, ?_, fun _ _ _ => rfl⟩
    simp only
    omega

/-- INSERT: without memory nothing changes; otherwise the element is added and stays behind a first
    element that is not after it. -/
theorem heapInsert_spec [Inhabited α] (hw : Wf orderby h) (el : α) (alloc : Bool) :
    heapInsert orderby h el alloc = (-1, h) ∧ alloc = false ∨
      ∃ u, heapInsert orderby h el alloc = (0, u) ∧ Wf orderby u ∧ u.n = h.n + 1 ∧
        contents u.n u.top = el ::ₘ contents h.n h.top ∧
        (h.n ≠ 0 → orderby (h.top 1) ≤ orderby el → u.top 1 = h.top 1) := by
  rw [heapInsert]
  by_cases hmem : h.size ≤ h.n + 1 ∧ alloc = false
  · rw [if_pos hmem]
    exact .inl ⟨rfl, hmem.2⟩
  · rw [if_neg hmem]
    obtain ⟨hn, hsize, hcap, htop⟩ := grow_spec hw
    have hcont : contents h.n (grow h).top = contents h.n h.top := contents_congr htop
    have hadd : contents (h.n + 1) (Function.update (grow h).top (h.n + 1) el) =
        el ::ₘ contents h.n h.top := by
      rw [contents_succ, Function.update_self, contents_update_outside (Nat.lt_succ_self h.n), hcont]
    have hord : Ordered orderby h.n (grow h).top := by
      intro j hj hjn
      rw [htop j (by omega) hjn, htop (j / 2) (by omega) (by omega)]
      exact hw.ordered j hj hjn
    right
    by_cases hone : h.n = 0
    · rw [hone, Nat.zero_add] at hn hadd
      simp only [if_pos hn]
      refine ⟨_, rfl, ⟨?_, hsize, .inr hcap⟩, by rw [hone, Nat.zero_add]; exact hn, ?_,
        fun habs => absurd hone habs⟩
      · intro j hj hjn
        simp only at hjn
        omega
      · simp only [hn, hone]
        exact hadd
    · have hne : ¬ (grow h).n = 1 := by omega
      simp only [if_neg hne]
      have hup : UpHole orderby (grow h).n (Function.update (grow h).top (grow h).n el)
          (grow h).n := by
        rw [hn]
        exact hord.upHole
      obtain ⟨hord', hcont', hroot⟩ := insertLoop_spec (k := (grow h).n) (by omega) (by omega)
        le_rfl hup
      refine ⟨_, rfl, ⟨hord', hsize, .inr hcap⟩, hn, ?_, ?_⟩
      · simp only
        rw [hcont', hn, hadd]
      · intro _ hle
        have hfirst := htop 1 le_rfl (by omega)
        simp only
        rw [hroot (by omega) (by rw [hfirst]; exact hle), hfirst]

/-- LOOP: the last element finds its place from the root. -/
theorem peekLoop_spec (hk : n ≤ i + k) (hi : 1 ≤ i) (hin : i ≤ n ∨ n = 0)
    (hdown : DownHole orderby n (Function.update top i last) i) :
    let (j, t) := peekLoop orderby n last k i top
    Ordered orderby n (Function.update t j last) ∧
      contents n (Function.update t j last) = contents n (Function.update top i last) := by
  induction k generalizing i top with
  | zero =>
    refine ⟨hdown.done ?_, rfl⟩
    intro j hj hjn hji
    omega
  | succ k ih =>
    rw [peekLoop]
    by_cases hmore : i * 2 ≤ n
    · rw [if_pos hmore]
      simp only
      generalize hc : (if 2 * i ≠ n ∧ orderby (top (2 * i + 1)) < orderby (top (2 * i)) then 2 * i + 1
        else 2 * i) = c
      -- the chosen child is the one that comes first
      have hchild : c / 2 = i ∧ c ≤ n ∧
          ∀ j, j ≤ n → j / 2 = i → orderby (top c) ≤ orderby (top j) := by
        by_cases hright : 2 * i ≠ n ∧ orderby (top (2 * i + 1)) < orderby (top (2 * i))
        · rw [if_pos hright] at hc
          subst hc
          refine ⟨by omega, by omega, ?_⟩
          intro j hjn hji
          obtain rfl | rfl : j = 2 * i ∨ j = 2 * i + 1 := by omega
          · exact hright.2.le
          · exact le_rfl
        · rw [if_neg hright] at hc
          subst hc
          refine ⟨by omega, by omega, ?_⟩
          intro j hjn hji
          obtain rfl | rfl : j = 2 * i ∨ j = 2 * i + 1 := by omega
          · exact le_rfl
          · rw [not_and, not_lt] at hright
            exact hright (by omega)
      obtain ⟨hci, hcn, hleast⟩ := hchild
      have hne : i ≠ c := by omega
      by_cases hlt : orderby (top c) < orderby last
      · rw [if_pos hlt]
        have hmove := update_move (g := top) (x := last) hne
        have hstep := hdown.move hi hci hcn (by
          intro j hj hjn hji
          rw [Function.update_of_ne hne.symm, Function.update_of_ne (by omega)]
          exact hleast j hjn hji) (by
          rw [Function.update_self, Function.update_of_ne hne.symm]
          exact hlt)
        rw [← hmove] at hstep
        obtain ⟨hord, hcont⟩ := ih (by omega) (by omega) (.inl hcn) hstep
        refine ⟨hord, ?_⟩
        rw [hcont, hmove, contents_swap hi (by omega) (by omega) hcn]
      · rw [if_neg hlt]
        refine ⟨hdown.done ?_, rfl⟩
        intro j hj hjn hji
        rw [Function.update_self, Function.update_of_ne (by omega)]
        exact (not_lt.mp hlt).trans (hleast j hjn hji)
    · rw [if_neg hmore]
      refine ⟨hdown.done ?_, rfl⟩
      intro j hj hjn hji
      omega

/-- PEEK takes out the first element. -/
theorem heapPeek_spec (hw : Wf orderby h) (hn : h.n ≠ 0) :
    ∃ u, heapPeek orderby h = some (h.top 1, u) ∧ Wf orderby u ∧
      h.top 1 ::ₘ contents u.n u.top = contents h.n h.top := by
  rw [heapPeek, if_neg hn]
  obtain ⟨m, hm⟩ := Nat.exists_eq_succ_of_ne_zero hn
  have hsize := hw.size_le
  have hcap := hw.n_lt
  have hdown : DownHole orderby m (Function.update h.top 1 (h.top h.n)) 1 :=
    hw.ordered.downHole (by omega)
  obtain ⟨hord, hcont⟩ := peekLoop_spec (k := m) (by omega) le_rfl (by omega) hdown
  have hpred : h.n - 1 = m := by omega
  simp only [hpred]
  refine ⟨_, rfl, ⟨hord, hsize, ?_⟩, ?_⟩
  · simp only
    omega
  · simp only
    rw [hcont, hm]
    by_cases hzero : m = 0
    · subst hzero
      rw [contents_succ]
      rfl
    · rw [Nat.succ_eq_add_one, contents_succ, contents_replace le_rfl (by omega)]

theorem heapFirst_eq_some {x : α} (hx : heapFirst h = some x) : h.n ≠ 0 ∧ h.top 1 = x := by
  rw [heapFirst] at hx
  split at hx
  · cases hx
  · rename_i hn
    exact ⟨hn, Option.some.inj hx⟩

theorem heapFirst_eq_none (hx : heapFirst h = none) : h.n = 0 := by
  rw [heapFirst] at hx
  split at hx
  · assumption
  · cases hx

end FdPicotcp.DeclareHeap
