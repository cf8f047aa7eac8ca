import Mathlib.Logic.Equiv.Basic
import Mathlib.Order.Interval.Finset.Nat
import Mathlib.Tactic.Common

/-! Binary heaps in an array that starts at 1: the parent of `i` is `i / 2`.

    The array is a function, of which the elements `1` to `n` count. An element on its way up or down
    leaves every edge in order but those at its own place (`UpHole`, `DownHole`), and a step swaps it
    with a neighbour. -/

namespace BinaryHeap

variable {α κ : Type*} {n i j c : ℕ} {g : ℕ → α} {x : α}

def contents (n : ℕ) (g : ℕ → α) : Multiset α := (Finset.Icc 1 n).val.map g

@[simp] theorem contents_zero : contents 0 g = 0 := rfl

theorem contents_succ : contents (n + 1) g = g (n + 1) ::ₘ contents n g := by
  have hnot : n + 1 ∉ Finset.Icc 1 n := by
    rw [Finset.mem_Icc]
    omega
  have hinsert : Finset.Icc 1 (n + 1) = insert (n + 1) (Finset.Icc 1 n) := by
    ext i
    rw [Finset.mem_insert, Finset.mem_Icc, Finset.mem_Icc]
    omega
  rw [contents, hinsert, Finset.insert_val_of_notMem hnot, Multiset.map_cons, contents]

theorem mem_contents : x ∈ contents n g ↔ ∃ i, 1 ≤ i ∧ i ≤ n ∧ g i = x := by
  simp only [contents, Multiset.mem_map, Finset.mem_val, Finset.mem_Icc, and_assoc]

theorem contents_congr {h : ℕ → α} (hgh : ∀ i, 1 ≤ i → i ≤ n → g i = h i) :
    contents n g = contents n h := by
  refine Multiset.map_congr rfl ?_
  intro i hi
  rw [Finset.mem_val, Finset.mem_Icc] at hi
  exact hgh i hi.1 hi.2

theorem contents_update_outside (hi : n < i) : contents n (Function.update g i x) = contents n g := by
  refine contents_congr ?_
  intro j _ hj
  rw [Function.update_of_ne (by omega)]

/-- Swapping two elements does not change what is in the heap. -/
theorem contents_swap (hi : 1 ≤ i) (hin : i ≤ n) (hj : 1 ≤ j) (hjn : j ≤ n) :
    contents n (g ∘ Equiv.swap i j) = contents n g := by
  have hmap : (Finset.Icc 1 n).map (Equiv.swap i j).toEmbedding = Finset.Icc 1 n := by
    ext k
    rw [Finset.mem_map_equiv, Equiv.symm_swap, Equiv.swap_apply_def, Finset.mem_Icc, Finset.mem_Icc]
    split_ifs <;> omega
  have hval := congrArg Finset.val hmap
  rw [Finset.map_val] at hval
  rw [contents, contents]
  conv_rhs => rw [← hval]
  rw [Multiset.map_map]
  rfl

/-- Moving an element into the hole moves the hole to where it was. -/
theorem update_move (hij : i ≠ j) :
    Function.update (Function.update g i (g j)) j x = Function.update g i x ∘ Equiv.swap i j := by
  funext k
  rw [Function.comp_apply, Equiv.swap_apply_def]
  by_cases hkj : k = j
  · subst hkj
    rw [Function.update_self, if_neg hij.symm, if_pos rfl, Function.update_self]
  · rw [Function.update_of_ne hkj]
    by_cases hki : k = i
    · subst hki
      rw [Function.update_self, if_pos rfl, Function.update_of_ne (Ne.symm hij)]
    · rw [Function.update_of_ne hki, if_neg hki, if_neg hkj, Function.update_of_ne hki]

/-- Replacing one element by another. -/
theorem contents_replace (hi : 1 ≤ i) (hin : i ≤ n) :
    g i ::ₘ contents n (Function.update g i x) = x ::ₘ contents n g := by
  have hmem : i ∈ Finset.Icc 1 n := Finset.mem_Icc.mpr ⟨hi, hin⟩
  have hsplit := Finset.insert_erase hmem
  have hval : (Finset.Icc 1 n).val = i ::ₘ ((Finset.Icc 1 n).erase i).val := by
    conv_lhs => rw [← hsplit]
    exact Finset.insert_val_of_notMem (Finset.notMem_erase i _)
  have hrest : ((Finset.Icc 1 n).erase i).val.map (Function.update g i x) =
      ((Finset.Icc 1 n).erase i).val.map g := by
    refine Multiset.map_congr rfl ?_
    intro k hk
    rw [Function.update_of_ne (Finset.ne_of_mem_erase (Finset.mem_val.mp hk))]
  rw [contents, contents, hval, Multiset.map_cons, Multiset.map_cons, hrest, Function.update_self,
    Multiset.cons_swap]

variable [LinearOrder κ] {key : α → κ}

/-- No element is before its parent. -/
def Ordered (key : α → κ) (n : ℕ) (g : ℕ → α) : Prop :=
  ∀ j, 2 ≤ j → j ≤ n → key (g (j / 2)) ≤ key (g j)

/-- ROOT: the first element is the least. -/
theorem Ordered.root_le (h : Ordered key n g) (hi : 1 ≤ i) (hin : i ≤ n) :
    key (g 1) ≤ key (g i) := by
  induction i using Nat.strong_induction_on with
  | _ i ih =>
    by_cases hone : i = 1
    · rw [hone]
    · have hhalf := ih (i / 2) (by omega) (by omega) (by omega)
      exact hhalf.trans (h i (by omega) hin)

theorem Ordered.root_le_mem (h : Ordered key n g) (hx : x ∈ contents n g) : key (g 1) ≤ key x := by
  obtain ⟨i, hi, hin, rfl⟩ := mem_contents.mp hx
  exact h.root_le hi hin

/-- The element at `i` may be before its parent. -/
structure UpHole (key : α → κ) (n : ℕ) (g : ℕ → α) (i : ℕ) : Prop where
  edges : ∀ j, 2 ≤ j → j ≤ n → j ≠ i → key (g (j / 2)) ≤ key (g j)
  skip : 2 ≤ i → ∀ j, j ≤ n → j / 2 = i → key (g (i / 2)) ≤ key (g j)

theorem UpHole.move (h : UpHole key n g i) (hi : 2 ≤ i) (hin : i ≤ n)
    (hlt : key (g i) < key (g (i / 2))) : UpHole key n (g ∘ Equiv.swap i (i / 2)) (i / 2) := by
  have hne : i / 2 ≠ i := by omega
  constructor
  · intro j hj hjn hji
    simp only [Function.comp_apply, Equiv.swap_apply_def, if_neg hji]
    by_cases hii : j = i
    · -- the old parent is now below the element
      rw [if_pos hii, hii, if_neg hne, if_pos rfl]
      exact hlt.le
    · rw [if_neg hii]
      by_cases hchild : j / 2 = i
      · rw [if_pos hchild]
        exact h.skip hi j hjn hchild
      · rw [if_neg hchild]
        have hedge := h.edges j hj hjn hii
        by_cases hsib : j / 2 = i / 2
        · rw [if_pos hsib]
          rw [hsib] at hedge
          exact hlt.le.trans hedge
        · rw [if_neg hsib]
          exact hedge
  · intro hi2 j hjn hji
    have hup := h.edges (i / 2) hi2 (by omega) hne
    have hj2 : j ≠ i / 2 := by omega
    have hq1 : i / 2 / 2 ≠ i := by omega
    have hq2 : i / 2 / 2 ≠ i / 2 := by omega
    simp only [Function.comp_apply, Equiv.swap_apply_def, if_neg hj2, if_neg hq1, if_neg hq2]
    by_cases hii : j = i
    · rw [if_pos hii]
      exact hup
    · rw [if_neg hii]
      have hedge := h.edges j (by omega) hjn hii
      rw [hji] at hedge
      exact hup.trans hedge

theorem UpHole.done (h : UpHole key n g i) (hstop : 2 ≤ i → key (g (i / 2)) ≤ key (g i)) :
    Ordered key n g := by
  intro j hj hjn
  by_cases hji : j = i
  · rw [hji]
    exact hstop (hji ▸ hj)
  · exact h.edges j hj hjn hji

/-- The element at `i` may be after its children. -/
structure DownHole (key : α → κ) (n : ℕ) (g : ℕ → α) (i : ℕ) : Prop where
  edges : ∀ j, 2 ≤ j → j ≤ n → j / 2 ≠ i → key (g (j / 2)) ≤ key (g j)
  skip : 2 ≤ i → ∀ j, j ≤ n → j / 2 = i → key (g (i / 2)) ≤ key (g j)

theorem DownHole.move (h : DownHole key n g i) (hi : 1 ≤ i) (hc : c / 2 = i) (hcn : c ≤ n)
    (hleast : ∀ j, 2 ≤ j → j ≤ n → j / 2 = i → key (g c) ≤ key (g j))
    (hlt : key (g c) < key (g i)) : DownHole key n (g ∘ Equiv.swap i c) c := by
  have hci : c ≠ i := by omega
  have hc2 : 2 ≤ c := by omega
  constructor
  · intro j hj hjn hjc
    simp only [Function.comp_apply, Equiv.swap_apply_def, if_neg hjc]
    by_cases hpar : j / 2 = i
    · -- the child is now above its old parent and its old sibling
      have hji : j ≠ i := by omega
      rw [if_pos hpar, if_neg hji]
      by_cases hj' : j = c
      · rw [if_pos hj']
        exact hlt.le
      · rw [if_neg hj']
        exact hleast j hj hjn hpar
    · rw [if_neg hpar]
      by_cases hji : j = i
      · rw [if_pos hji, hji]
        exact h.skip (hji ▸ hj) c hcn hc
      · have hj' : j ≠ c := by
          rintro rfl
          exact hpar hc
        rw [if_neg hji, if_neg hj']
        exact h.edges j hj hjn hpar
  · intro _ j hjn hjc
    have hji : j ≠ i := by omega
    have hj' : j ≠ c := by omega
    simp only [Function.comp_apply, Equiv.swap_apply_def, hc, if_true, if_neg hji, if_neg hj']
    have hedge := h.edges j (by omega) hjn (by omega)
    rw [hjc] at hedge
    exact hedge

theorem DownHole.done (h : DownHole key n g i)
    (hstop : ∀ j, 2 ≤ j → j ≤ n → j / 2 = i → key (g i) ≤ key (g j)) : Ordered key n g := by
  intro j hj hjn
  by_cases hji : j / 2 = i
  · have := hstop j hj hjn hji
    rwa [hji]
  · exact h.edges j hj hjn hji

/-- Filling the place of the root from below. -/
theorem Ordered.downHole (h : Ordered key n g) (hi : i ≤ n) :
    DownHole key i (Function.update g 1 x) 1 := by
  constructor
  · intro j hj hji hj1
    rw [Function.update_of_ne hj1, Function.update_of_ne (by omega)]
    exact h j hj (hji.trans hi)
  · intro habs
    omega

/-- A new last element. -/
theorem Ordered.upHole (h : Ordered key n g) :
    UpHole key (n + 1) (Function.update g (n + 1) x) (n + 1) := by
  constructor
  · intro j hj hjn hne
    rw [Function.update_of_ne hne, Function.update_of_ne (by omega)]
    exact h j hj (by omega)
  · intro _ j hjn hj
    omega

end BinaryHeap
