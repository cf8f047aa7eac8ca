import FdPicotcp.Lib.SearchTree
import Mathlib.Algebra.Order.Ring.Nat

/-! Binary trees whose nodes are red or black, and places in them.

    A place is a subtree and the way up from it, nearest node first: a frame is a node without one of
    its children. `plug` goes back to the whole tree. `Balanced t c n` says that `t` has a root of
    colour `c`, no red node below a red one and `n` black nodes on every way down. -/

namespace ColorTree
open SearchTree

variable {α : Type*}

/-- The two colours of a node. -/
inductive Color where
  | red
  | black
  deriving DecidableEq

/-- A tree whose nodes have colours; the colour of the leaf is kept apart. -/
inductive Colored (α : Type*) where
  | leaf
  | node (c : Color) (l : Colored α) (x : α) (r : Colored α)
  deriving DecidableEq

/-- Which child. -/
inductive Side where
  | left
  | right
  deriving DecidableEq

/-- A node with one of its children missing. -/
structure Frame (α : Type*) where
  side : Side
  color : Color
  x : α
  sibling : Colored α

/-- The node with the tree put where the path went on. -/
def Frame.fill (f : Frame α) (t : Colored α) : Colored α :=
  match f.side with
  | .left => .node f.color t f.x f.sibling
  | .right => .node f.color f.sibling f.x t

/-- The whole tree around a place. -/
def plug : List (Frame α) → Colored α → Colored α
  | [], t => t
  | f :: fs, t => plug fs (f.fill t)

namespace Colored

/-- Without the colours. -/
def forget : Colored α → KeyTree α
  | leaf => .leaf
  | node _ l x r => .node l.forget x r.forget

/-- The order in which the tree is traversed. -/
def toList (t : Colored α) : List α := t.forget.toList

/-- Another colour for the root, if there is one. -/
def paint (c : Color) : Colored α → Colored α
  | leaf => leaf
  | node _ l x r => node c l x r

/-- The number of nodes. -/
def size : Colored α → ℕ
  | leaf => 0
  | node _ l _ r => l.size + r.size + 1

/-- The length of the longest path. -/
def height : Colored α → ℕ
  | leaf => 0
  | node _ l _ r => max l.height r.height + 1

end Colored

open Colored

/-- What comes before the subtree in the order of traversal. -/
def before : List (Frame α) → List α
  | [] => []
  | f :: fs =>
    match f.side with
    | .left => before fs
    | .right => before fs ++ f.sibling.toList ++ [f.x]

/-- What comes after it. -/
def after : List (Frame α) → List α
  | [] => []
  | f :: fs =>
    match f.side with
    | .left => f.x :: f.sibling.toList ++ after fs
    | .right => after fs

variable {c : Color} {l r t : Colored α} {x : α} {f : Frame α} {fs : List (Frame α)} {n : ℕ}

@[simp] theorem toList_leaf : (leaf : Colored α).toList = [] := rfl

@[simp] theorem toList_node : (node c l x r).toList = l.toList ++ x :: r.toList := rfl

@[simp] theorem toList_paint : (t.paint c).toList = t.toList := by
  cases t <;> rfl

@[simp] theorem toList_plug : (plug fs t).toList = before fs ++ t.toList ++ after fs := by
  induction fs generalizing t with
  | nil => simp [plug, before, after]
  | cons f fs ih =>
    obtain ⟨side, color, y, s⟩ := f
    cases side <;> simp [plug, before, after, ih, Frame.fill]

theorem before_append (fs gs : List (Frame α)) : before (fs ++ gs) = before gs ++ before fs := by
  induction fs with
  | nil => simp [before]
  | cons f fs ih =>
    obtain ⟨side, color, y, s⟩ := f
    cases side <;> simp [before, ih]

theorem after_append (fs gs : List (Frame α)) : after (fs ++ gs) = after fs ++ after gs := by
  induction fs with
  | nil => simp [after]
  | cons f fs ih =>
    obtain ⟨side, color, y, s⟩ := f
    cases side <;> simp [after, ih]

/-- Red-black trees: the colour of the root and the number of black nodes on every way down. -/
inductive Balanced : Colored α → Color → ℕ → Prop where
  | leaf : Balanced leaf .black 0
  | red {l r : Colored α} {x : α} {n : ℕ} :
      Balanced l .black n → Balanced r .black n → Balanced (node .red l x r) .red n
  | black {l r : Colored α} {x : α} {c d : Color} {n : ℕ} :
      Balanced l c n → Balanced r d n → Balanced (node .black l x r) .black (n + 1)

/-- SIZE: a balanced tree has at least `2 ^ n - 1` nodes. -/
theorem Balanced.size_ge (h : Balanced t c n) : 2 ^ n ≤ t.size + 1 := by
  induction h with
  | leaf => exact le_rfl
  | red _ _ ihl ihr =>
    rw [size]
    omega
  | black _ _ ihl ihr =>
    rw [size, Nat.pow_succ]
    omega

theorem Balanced.height_le (h : Balanced t c n) :
    t.height ≤ 2 * n + if c = .red then 1 else 0 := by
  induction h with
  | leaf => exact Nat.zero_le _
  | red _ _ ihl ihr =>
    rw [if_neg (by decide)] at ihl ihr
    rw [height, if_pos rfl]
    omega
  | black _ _ ihl ihr =>
    rw [height, if_neg (by decide)]
    split at ihl <;> split at ihr <;> omega

/-- HEIGHT: a tree with a black root is at most twice as high as it has to be. -/
theorem Balanced.height_log (h : Balanced t .black n) : 2 ^ t.height ≤ (t.size + 1) ^ 2 := by
  have hheight := h.height_le
  rw [if_neg (by decide), Nat.add_zero] at hheight
  calc 2 ^ t.height ≤ 2 ^ (2 * n) := Nat.pow_le_pow_right (by decide) hheight
    _ = (2 ^ n) ^ 2 := by rw [Nat.mul_comm, Nat.pow_mul]
    _ ≤ (t.size + 1) ^ 2 := Nat.pow_le_pow_left h.size_ge 2

/-- The nearest node above, if there is one, is black. -/
def BlackAbove : List (Frame α) → Prop
  | [] => True
  | f :: _ => f.color = .black

/-- A place for a tree with a black root and `n` black nodes on every way down. -/
def Fits : List (Frame α) → ℕ → Prop
  | [], _ => True
  | f :: fs, n =>
    match f.color with
    | .black => (∃ c, Balanced f.sibling c n) ∧ Fits fs (n + 1)
    | .red => Balanced f.sibling .black n ∧ BlackAbove fs ∧ Fits fs n

theorem Balanced.fill_black (h : Balanced t c n) (hs : ∃ d, Balanced f.sibling d n)
    (hf : f.color = .black) : Balanced (f.fill t) .black (n + 1) := by
  obtain ⟨side, color, y, s⟩ := f
  obtain ⟨d, hs⟩ := hs
  subst hf
  cases side with
  | left => exact .black h hs
  | right => exact .black hs h

theorem Balanced.fill_red (h : Balanced t .black n) (hs : Balanced f.sibling .black n)
    (hf : f.color = .red) : Balanced (f.fill t) .red n := by
  obtain ⟨side, color, y, s⟩ := f
  subst hf
  cases side with
  | left => exact .red h hs
  | right => exact .red hs h

/-- PLUG: a tree that fits is part of a balanced tree; a red root needs a black node above. -/
theorem Balanced.plug (h : Balanced t c n) (hf : Fits fs n) (hc : c = .black ∨ BlackAbove fs) :
    ∃ d m, Balanced (plug fs t) d m := by
  induction fs generalizing t c n with
  | nil => exact ⟨c, n, h⟩
  | cons f fs ih =>
    rw [Fits] at hf
    cases hcolor : f.color with
    | black =>
      rw [hcolor] at hf
      exact ih (h.fill_black hf.1 hcolor) hf.2 (.inl rfl)
    | red =>
      rw [hcolor] at hf
      have hblack : c = .black := by
        rcases hc with hc | hc
        · exact hc
        · rw [BlackAbove, hcolor] at hc
          cases hc
      subst hblack
      exact ih (h.fill_red hf.1 hcolor) hf.2.2 (.inr hf.2.1)

/-- The colour of the root. -/
def Colored.root : Colored α → Color
  | leaf => .black
  | node c _ _ _ => c

theorem Balanced.root (h : Balanced t c n) : t.root = c := by
  cases h <;> rfl

theorem Balanced.unique {d : Color} {m : ℕ} (h : Balanced t c n) (h' : Balanced t d m) : n = m := by
  induction h generalizing d m with
  | leaf =>
    cases h'
    rfl
  | red _ _ ihl _ =>
    cases h' with
    | red hl' _ => exact ihl hl'
  | black _ _ ihl _ =>
    cases h' with
    | black hl' _ => rw [ihl hl']

/-- The nearest node above fixes the number of black nodes. -/
theorem Fits.unique {m : ℕ} (h : Fits (f :: fs) n) (h' : Fits (f :: fs) m) : n = m := by
  rw [Fits] at h h'
  cases hcolor : f.color with
  | black =>
    rw [hcolor] at h h'
    obtain ⟨⟨c, hs⟩, -⟩ := h
    obtain ⟨⟨d, hs'⟩, -⟩ := h'
    exact hs.unique hs'
  | red =>
    rw [hcolor] at h h'
    exact h.1.unique h'.1

/-- UNPLUG: a part of a balanced tree is balanced and fits. -/
theorem Balanced.unplug {d : Color} {m : ℕ} (h : Balanced (ColorTree.plug fs t) d m) :
    ∃ c n, Balanced t c n ∧ Fits fs n ∧ (c = .black ∨ BlackAbove fs) := by
  induction fs generalizing t with
  | nil => exact ⟨d, m, h, trivial, .inr trivial⟩
  | cons f fs ih =>
    obtain ⟨side, color, x, s⟩ := f
    obtain ⟨c, n, hfill, hfits, habove⟩ := ih h
    cases side with
    | left =>
      cases hfill with
      | red ht hs => exact ⟨_, _, ht, ⟨hs, habove.resolve_left (by simp), hfits⟩, .inl rfl⟩
      | black ht hs => exact ⟨_, _, ht, ⟨⟨_, hs⟩, hfits⟩, .inr rfl⟩
    | right =>
      cases hfill with
      | red hs ht => exact ⟨_, _, ht, ⟨hs, habove.resolve_left (by simp), hfits⟩, .inl rfl⟩
      | black hs ht => exact ⟨_, _, ht, ⟨⟨_, hs⟩, hfits⟩, .inr rfl⟩

theorem plug_append (fs gs : List (Frame α)) (t : Colored α) : plug (fs ++ gs) t = plug gs (plug fs t) := by
  induction fs generalizing t with
  | nil => rfl
  | cons f fs ih => exact ih (f.fill t)

/-- What is plugged in below a node does not change the colour of the root. -/
theorem root_plug (f : Frame α) (fs : List (Frame α)) (t u : Colored α) :
    (plug (f :: fs) t).root = (plug (f :: fs) u).root := by
  induction fs generalizing f t u with
  | nil =>
    obtain ⟨side, color, x, s⟩ := f
    cases side <;> rfl
  | cons g fs ih => exact ih g (f.fill t) (f.fill u)

/-- The elements above do not matter. -/
theorem fits_congr (fs : List (Frame α)) (f : Frame α) (gs : List (Frame α)) (x : α) (n : ℕ) :
    (Fits (fs ++ f :: gs) n ↔ Fits (fs ++ { f with x := x } :: gs) n) ∧
      (BlackAbove (fs ++ f :: gs) ↔ BlackAbove (fs ++ { f with x := x } :: gs)) := by
  induction fs generalizing n with
  | nil => exact ⟨Iff.rfl, Iff.rfl⟩
  | cons g fs ih =>
    refine ⟨?_, Iff.rfl⟩
    rw [List.cons_append, List.cons_append, Fits, Fits]
    cases g.color with
    | black => exact and_congr_right fun _ => (ih (n + 1)).1
    | red => exact and_congr_right fun _ => and_congr (ih n).2 (ih n).1

/-- A balanced tree with its root painted black. -/
theorem Balanced.paint_black (h : Balanced t c n) : ∃ m, Balanced (t.paint .black) .black m := by
  cases h with
  | leaf => exact ⟨0, .leaf⟩
  | red hl hr => exact ⟨_, .black hl hr⟩
  | black hl hr => exact ⟨_, .black hl hr⟩

/-- A red node below the root, which is painted black. -/
theorem Balanced.paint_fill (h : Balanced t c n) (hf : Fits [f] n) :
    ∃ m, Balanced ((f.fill t).paint .black) .black m := by
  obtain ⟨side, color, x, s⟩ := f
  have hs : ∃ d, Balanced s d n := by
    cases color with
    | black => exact hf.1
    | red => exact ⟨_, hf.1⟩
  cases side with
  | left => exact ⟨_, h.fill_black (f := ⟨.left, .black, x, s⟩) hs rfl⟩
  | right => exact ⟨_, h.fill_black (f := ⟨.right, .black, x, s⟩) hs rfl⟩

end ColorTree
