import Mathlib.Order.Lattice
import Mathlib.Logic.Function.Basic
import Mathlib.Tactic.Common

/-! Binary search trees whose keys are compared by a C function.

    `cmp a b` is negative, zero or positive as a comparator's `int` is, and need not be an order on
    the elements: two elements that compare as 0 are the same key. `insert` leaves the tree alone
    when an element of the same key is found, `delete` takes out the element it finds. The element
    looked for is on the right of the comparison in `findKey` and on the left in `place`.

    `Orders cmp key` says that the comparator orders the elements by `key`. A tree whose in-order
    list is strictly increasing in `key` is searched correctly and stays so. -/

namespace SearchTree

variable {α κ : Type*}

/-- A binary tree, without colours. -/
inductive KeyTree (α : Type*) where
  | leaf
  | node (l : KeyTree α) (x : α) (r : KeyTree α)

namespace KeyTree

/-- The order in which the tree is traversed. -/
def toList : KeyTree α → List α
  | leaf => []
  | node l x r => l.toList ++ x :: r.toList

/-- The search goes down by the sign of the comparison. -/
def findKey (cmp : α → α → ℤ) (k : α) : KeyTree α → Option α
  | leaf => none
  | node l x r =>
    if cmp x k = 0 then some x
    else if cmp x k < 0 then findKey cmp k r
    else findKey cmp k l

/-- A new node where the search for `k` ends. -/
def place (cmp : α → α → ℤ) (k : α) : KeyTree α → KeyTree α
  | leaf => node leaf k leaf
  | node l x r => if cmp k x < 0 then node (place cmp k l) x r else node l x (place cmp k r)

/-- `alloc` is that there is memory for a node. -/
def insert (cmp : α → α → ℤ) (k : α) (alloc : Bool) (t : KeyTree α) : KeyTree α :=
  if (t.findKey cmp k).isSome ∨ alloc = false then t else t.place cmp k

/-- The leftmost element, and the tree without it. -/
def popFirst : KeyTree α → α → KeyTree α → α × KeyTree α
  | leaf, x, r => (x, r)
  | node ll y lr, x, r => (popFirst ll y lr).map id fun l => node l x r

/-- What takes the place of a node with these subtrees. -/
def join : KeyTree α → KeyTree α → KeyTree α
  | leaf, r => r
  | l, leaf => l
  | node ll x lr, node rl y rr =>
    let (m, r) := popFirst rl y rr
    node (node ll x lr) m r

/-- The node found is taken out, and its two sides are joined. -/
def delete (cmp : α → α → ℤ) (k : α) : KeyTree α → KeyTree α
  | leaf => leaf
  | node l x r =>
    if cmp x k = 0 then join l r
    else if cmp x k < 0 then node l x (delete cmp k r)
    else node (delete cmp k l) x r

/-- Nothing is left. -/
def isEmpty : KeyTree α → Bool
  | leaf => true
  | node .. => false

@[simp] theorem toList_leaf : (leaf : KeyTree α).toList = [] := rfl

theorem isEmpty_iff {t : KeyTree α} : t.isEmpty = true ↔ t.toList = [] := by
  cases t with
  | leaf => simp [isEmpty]
  | node l x r => simp [isEmpty, toList]

theorem toList_popFirst (l : KeyTree α) (x : α) (r : KeyTree α) :
    (popFirst l x r).1 :: (popFirst l x r).2.toList = (node l x r).toList := by
  induction l generalizing x r with
  | leaf => rfl
  | node ll y lr ihl _ =>
    have ih := ihl y lr
    simp only [popFirst, Prod.map, id_eq, toList] at ih ⊢
    rw [← List.cons_append, ih]

theorem toList_join (l r : KeyTree α) : (join l r).toList = l.toList ++ r.toList := by
  cases l with
  | leaf => rw [join, toList_leaf, List.nil_append]
  | node ll x lr =>
    cases r with
    | leaf => exact (List.append_nil _).symm
    | node rl y rr => rw [join, toList, toList_popFirst]

/-- Deleting takes elements out and changes nothing else. -/
theorem toList_delete (cmp : α → α → ℤ) (k : α) (t : KeyTree α) :
    (t.delete cmp k).toList.Sublist t.toList := by
  induction t with
  | leaf => exact List.Sublist.refl _
  | node l x r ihl ihr =>
    rw [delete]
    split
    · rw [toList_join, toList]
      exact (List.Sublist.refl _).append (List.sublist_cons_self x _)
    · split
      · exact (List.Sublist.refl _).append (ihr.cons_cons x)
      · exact ihl.append (List.Sublist.refl _)

theorem mem_toList_place {cmp : α → α → ℤ} {k y : α} {t : KeyTree α} :
    y ∈ (t.place cmp k).toList ↔ y = k ∨ y ∈ t.toList := by
  induction t with
  | leaf => simp [place, toList]
  | node l x r ihl ihr =>
    rw [place]
    split
    · simp only [toList, List.mem_append, List.mem_cons, ihl]
      tauto
    · simp only [toList, List.mem_append, List.mem_cons, ihr]
      tauto

end KeyTree

open KeyTree

/-- The comparator orders the elements by `key`. -/
structure Orders [LinearOrder κ] (cmp : α → α → ℤ) (key : α → κ) : Prop where
  lt : ∀ a b, cmp a b < 0 ↔ key a < key b
  eq : ∀ a b, cmp a b = 0 ↔ key a = key b

variable [LinearOrder κ] {cmp : α → α → ℤ} {key : α → κ}

/-- Strictly increasing in `key`, in the order of traversal. -/
def Sorted (key : α → κ) (t : KeyTree α) : Prop := t.toList.Pairwise fun a b => key a < key b

theorem sorted_leaf : Sorted key leaf := List.Pairwise.nil

theorem sorted_node {l r : KeyTree α} {x : α} :
    Sorted key (node l x r) ↔ Sorted key l ∧ Sorted key r ∧ (∀ a ∈ l.toList, key a < key x) ∧
      (∀ b ∈ r.toList, key x < key b) := by
  rw [Sorted, toList, List.pairwise_append, List.pairwise_cons]
  constructor
  · rintro ⟨hl, ⟨hx, hr⟩, hlr⟩
    exact ⟨hl, hr, fun a ha => hlr a ha x (List.mem_cons_self ..), hx⟩
  · rintro ⟨hl, hr, hlx, hxr⟩
    refine ⟨hl, ⟨hxr, hr⟩, ?_⟩
    intro a ha b hb
    rcases List.mem_cons.mp hb with rfl | hb
    · exact hlx a ha
    · exact (hlx a ha).trans (hxr b hb)

theorem Sorted.congr {key' : α → κ} {t : KeyTree α} (h : Sorted key t)
    (hk : ∀ x ∈ t.toList, key' x = key x) : Sorted key' t := by
  refine List.Pairwise.imp_of_mem ?_ h
  intro a b ha hb hab
  rwa [hk a ha, hk b hb]

theorem Sorted.of_toList {t u : KeyTree α} (h : Sorted key t) (he : u.toList = t.toList) :
    Sorted key u := by
  rwa [Sorted, he]

/-- No two elements of a sorted tree have one key. -/
theorem Sorted.unique {t : KeyTree α} (h : Sorted key t) {a b : α} (ha : a ∈ t.toList)
    (hb : b ∈ t.toList) (hab : key a = key b) : a = b := by
  induction t with
  | leaf => cases ha
  | node l x r ihl ihr =>
    obtain ⟨hl, hr, hlx, hxr⟩ := sorted_node.mp h
    rw [toList, List.mem_append, List.mem_cons] at ha hb
    rcases ha with ha | rfl | ha
    · have hax := hlx a ha
      rcases hb with hb | rfl | hb
      · exact ihl hl ha hb
      · exact absurd hab hax.ne
      · exact absurd hab (hax.trans (hxr b hb)).ne
    · rcases hb with hb | rfl | hb
      · exact absurd hab (hlx b hb).ne'
      · rfl
      · exact absurd hab (hxr b hb).ne
    · have hxa := hxr a ha
      rcases hb with hb | rfl | hb
      · exact absurd hab ((hlx b hb).trans hxa).ne'
      · exact absurd hab hxa.ne'
      · exact ihr hr ha hb

/-- SEARCH: in a sorted tree an element of the same key is found if there is one. -/
theorem Sorted.findKey (ho : Orders cmp key) {k x : α} {t : KeyTree α} (h : Sorted key t) :
    t.findKey cmp k = some x ↔ x ∈ t.toList ∧ key x = key k := by
  induction t with
  | leaf => simp [KeyTree.findKey]
  | node l y r ihl ihr =>
    obtain ⟨hl, hr, hly, hyr⟩ := sorted_node.mp h
    rw [KeyTree.findKey, toList, List.mem_append, List.mem_cons]
    rcases lt_trichotomy (key y) (key k) with hlt | heq | hgt
    · rw [if_neg ((ho.eq y k).not.mpr hlt.ne), if_pos ((ho.lt y k).mpr hlt), ihr hr]
      constructor
      · rintro ⟨hx, hxk⟩
        exact ⟨.inr (.inr hx), hxk⟩
      · rintro ⟨hx | rfl | hx, hxk⟩
        · exact absurd hxk ((hly x hx).trans hlt).ne
        · exact absurd hxk hlt.ne
        · exact ⟨hx, hxk⟩
    · rw [if_pos ((ho.eq y k).mpr heq), Option.some.injEq]
      constructor
      · rintro rfl
        exact ⟨.inr (.inl rfl), heq⟩
      · rintro ⟨hx | rfl | hx, hxk⟩
        · exact absurd (hxk.trans heq.symm) (hly x hx).ne
        · rfl
        · exact absurd (hxk.trans heq.symm) (hyr x hx).ne'
    · have hnlt : ¬ cmp y k < 0 := (ho.lt y k).not.mpr hgt.not_gt
      rw [if_neg ((ho.eq y k).not.mpr hgt.ne'), if_neg hnlt, ihl hl]
      constructor
      · rintro ⟨hx, hxk⟩
        exact ⟨.inl hx, hxk⟩
      · rintro ⟨hx | rfl | hx, hxk⟩
        · exact ⟨hx, hxk⟩
        · exact absurd hxk hgt.ne'
        · exact absurd hxk (hgt.trans (hyr x hx)).ne'

theorem Sorted.findKey_isSome (ho : Orders cmp key) {k : α} {t : KeyTree α} (h : Sorted key t) :
    (t.findKey cmp k).isSome ↔ ∃ x ∈ t.toList, key x = key k := by
  rw [Option.isSome_iff_exists]
  exact exists_congr fun x => h.findKey ho

theorem Sorted.place (ho : Orders cmp key) {k : α} {t : KeyTree α} (h : Sorted key t)
    (hk : ∀ x ∈ t.toList, key x ≠ key k) : Sorted key (t.place cmp k) := by
  induction t with
  | leaf => exact sorted_node.mpr ⟨sorted_leaf, sorted_leaf, by simp, by simp⟩
  | node l y r ihl ihr =>
    obtain ⟨hl, hr, hly, hyr⟩ := sorted_node.mp h
    rw [toList] at hk
    rw [KeyTree.place]
    split
    · rename_i hlt
      have hkl : ∀ x ∈ l.toList, key x ≠ key k := fun x hx => hk x (List.mem_append_left _ hx)
      refine sorted_node.mpr ⟨ihl hl hkl, hr, ?_, hyr⟩
      intro a ha
      rcases mem_toList_place.mp ha with rfl | ha
      · exact (ho.lt a y).mp hlt
      · exact hly a ha
    · rename_i hge
      have hkr : ∀ x ∈ r.toList, key x ≠ key k :=
        fun x hx => hk x (List.mem_append_right _ (List.mem_cons_of_mem _ hx))
      have hyk : key y ≠ key k := hk y (List.mem_append_right _ (List.mem_cons_self ..))
      refine sorted_node.mpr ⟨hl, ihr hr hkr, hly, ?_⟩
      intro b hb
      rcases mem_toList_place.mp hb with rfl | hb
      · exact lt_of_le_of_ne (not_lt.mp ((ho.lt b y).not.mp hge)) hyk
      · exact hyr b hb

/-- INSERT into a sorted tree: a new key is added when there is memory. -/
theorem Sorted.insert (ho : Orders cmp key) {k : α} {alloc : Bool} {t : KeyTree α} (h : Sorted key t)
    (hk : ∀ x ∈ t.toList, x ≠ k → key x ≠ key k) (halloc : k ∈ t.toList ∨ alloc = true) :
    Sorted key (t.insert cmp k alloc) ∧
      ∀ y, y ∈ (t.insert cmp k alloc).toList ↔ y = k ∨ y ∈ t.toList := by
  rw [KeyTree.insert]
  by_cases hmem : k ∈ t.toList
  · rw [if_pos (.inl ((h.findKey_isSome ho).mpr ⟨k, hmem, rfl⟩))]
    refine ⟨h, fun y => ⟨.inr, ?_⟩⟩
    rintro (rfl | hy)
    · exact hmem
    · exact hy
  · have hnew : ∀ x ∈ t.toList, key x ≠ key k := by
      intro x hx
      refine hk x hx ?_
      rintro rfl
      exact hmem hx
    have hnone : ¬ ((t.findKey cmp k).isSome ∨ alloc = false) := by
      rintro (hfind | hfalse)
      · obtain ⟨x, hx, hxk⟩ := (h.findKey_isSome ho).mp hfind
        exact hnew x hx hxk
      · rw [hfalse] at halloc
        exact halloc.elim hmem Bool.false_ne_true
    rw [if_neg hnone]
    exact ⟨h.place ho hnew, fun y => mem_toList_place⟩

theorem Sorted.delete {k : α} {t : KeyTree α} (h : Sorted key t) : Sorted key (t.delete cmp k) :=
  h.sublist (toList_delete cmp k t)

/-- DELETE from a sorted tree: all other keys stay. -/
theorem Sorted.mem_delete (ho : Orders cmp key) {k y : α} {t : KeyTree α} (h : Sorted key t) :
    y ∈ (t.delete cmp k).toList ↔ y ∈ t.toList ∧ key y ≠ key k := by
  induction t with
  | leaf => simp [KeyTree.delete]
  | node l x r ihl ihr =>
    obtain ⟨hl, hr, hlx, hxr⟩ := sorted_node.mp h
    rw [KeyTree.delete, toList, List.mem_append, List.mem_cons]
    rcases lt_trichotomy (key x) (key k) with hlt | heq | hgt
    · rw [if_neg ((ho.eq x k).not.mpr hlt.ne), if_pos ((ho.lt x k).mpr hlt), toList, List.mem_append,
        List.mem_cons, ihr hr]
      constructor
      · rintro (hy | rfl | ⟨hy, hne⟩)
        · exact ⟨.inl hy, ((hlx y hy).trans hlt).ne⟩
        · exact ⟨.inr (.inl rfl), hlt.ne⟩
        · exact ⟨.inr (.inr hy), hne⟩
      · rintro ⟨hy | rfl | hy, hne⟩
        · exact .inl hy
        · exact .inr (.inl rfl)
        · exact .inr (.inr ⟨hy, hne⟩)
    · rw [if_pos ((ho.eq x k).mpr heq), toList_join, List.mem_append, ← heq]
      constructor
      · rintro (hy | hy)
        · exact ⟨.inl hy, (hlx y hy).ne⟩
        · exact ⟨.inr (.inr hy), (hxr y hy).ne'⟩
      · rintro ⟨hy | rfl | hy, hne⟩
        · exact .inl hy
        · exact absurd rfl hne
        · exact .inr hy
    · have hnlt : ¬ cmp x k < 0 := (ho.lt x k).not.mpr hgt.not_gt
      rw [if_neg ((ho.eq x k).not.mpr hgt.ne'), if_neg hnlt, toList, List.mem_append, List.mem_cons,
        ihl hl]
      constructor
      · rintro (⟨hy, hne⟩ | rfl | hy)
        · exact ⟨.inl hy, hne⟩
        · exact ⟨.inr (.inl rfl), hgt.ne'⟩
        · exact ⟨.inr (.inr hy), (hgt.trans (hxr y hy)).ne'⟩
      · rintro ⟨hy | rfl | hy, hne⟩
        · exact .inl ⟨hy, hne⟩
        · exact .inr (.inl rfl)
        · exact .inr (.inr hy)

/-! ### Trees as maps -/

/-- A sorted tree that holds the elements of a map from keys to elements of that key. -/
def Represents (key : α → κ) (t : KeyTree α) (m : κ → Option α) : Prop :=
  Sorted key t ∧ ∀ q x, m q = some x ↔ x ∈ t.toList ∧ key x = q

theorem represents_leaf : Represents key leaf fun _ => none := ⟨sorted_leaf, by simp⟩

variable {t u : KeyTree α} {m : κ → Option α}

theorem Represents.of_toList (h : Represents key t m) (he : u.toList = t.toList) :
    Represents key u m :=
  ⟨h.1.of_toList he, by rw [he]; exact h.2⟩

theorem Represents.findKey (ho : Orders cmp key) (h : Represents key t m) (k : α) :
    t.findKey cmp k = m (key k) := by
  refine Option.ext fun x => ?_
  rw [h.1.findKey ho, h.2]

/-- INSERT of a key that is not there. -/
theorem Represents.insert (ho : Orders cmp key) (h : Represents key t m) {k : α}
    (hk : m (key k) = none) :
    Represents key (t.insert cmp k true) (Function.update m (key k) (some k)) := by
  have hnew : ∀ x ∈ t.toList, key x ≠ key k := by
    intro x hx heq
    rw [(h.2 (key k) x).mpr ⟨hx, heq⟩] at hk
    cases hk
  obtain ⟨hsorted, hmem⟩ := h.1.insert ho (fun x hx _ => hnew x hx) (.inr rfl)
  refine ⟨hsorted, fun q x => ?_⟩
  rw [hmem]
  by_cases hq : q = key k
  · subst hq
    rw [Function.update_self, Option.some.injEq]
    constructor
    · rintro rfl
      exact ⟨.inl rfl, rfl⟩
    · rintro ⟨rfl | hx, heq⟩
      · rfl
      · exact absurd heq (hnew x hx)
  · rw [Function.update_of_ne hq, h.2]
    constructor
    · rintro ⟨hx, rfl⟩
      exact ⟨.inr hx, rfl⟩
    · rintro ⟨rfl | hx, rfl⟩
      · exact absurd rfl hq
      · exact ⟨hx, rfl⟩

theorem Represents.delete (ho : Orders cmp key) (h : Represents key t m) (k : α) :
    Represents key (t.delete cmp k) (Function.update m (key k) none) := by
  refine ⟨h.1.delete, fun q x => ?_⟩
  rw [h.1.mem_delete ho]
  by_cases hq : q = key k
  · subst hq
    rw [Function.update_self]
    constructor
    · rintro ⟨⟩
    · rintro ⟨⟨-, hne⟩, heq⟩
      exact absurd heq hne
  · rw [Function.update_of_ne hq, h.2]
    constructor
    · rintro ⟨hx, rfl⟩
      exact ⟨⟨hx, hq⟩, rfl⟩
    · rintro ⟨⟨hx, -⟩, heq⟩
      exact ⟨hx, heq⟩

end SearchTree
