import FdPicotcp.Lib.ColorTree

/-! The tree of picoTCP (`stack/pico_tree.c`): tables of sockets, queues of segments, links, routes.

    Nodes have a colour and are rotated as in a red-black tree. A place in the tree is a subtree with
    the nodes above it, which the source follows by parent pointers. All trees share one `LEAF`, a
    node like any other: its colour is read, and `fix_delete_collisions` can make it red. -/

namespace FdPicotcp.Tree
open SearchTree ColorTree ColorTree.Colored

variable {α : Type*}

/-- `x->color`, where `x` may be `LEAF`. -/
def colorOf (leafColor : Color) : Colored α → Color
  | leaf => leafColor
  | node c _ _ _ => c

/-- `x->color = c`: the colour of `LEAF` afterwards and the subtree. -/
def setColor (leafColor : Color) (t : Colored α) (c : Color) : Color × Colored α :=
  match t with
  | leaf => (c, leaf)
  | node _ l x r => (leafColor, node c l x r)

/-- `LEAF` has itself for a child. -/
def leftChild : Colored α → Colored α
  | leaf => leaf
  | node _ l _ _ => l

/-- The same on the right. -/
def rightChild : Colored α → Colored α
  | leaf => leaf
  | node _ _ _ r => r

/-- `rotateToLeft`: the right child goes up. -/
def rotateToLeft : Colored α → Colored α
  | node c l x (node d rl y rr) => node d (node c l x rl) y rr
  | t => t

/-- `rotateToRight`: the left child goes up. -/
def rotateToRight : Colored α → Colored α
  | node c (node d ll y lr) x r => node d ll y (node c lr x r)
  | t => t

/-- The rotation that moves the left, or the right, child down. -/
def rotate : Side → Colored α → Colored α
  | .left => rotateToLeft
  | .right => rotateToRight

/-- The other side. -/
def opposite : Side → Side
  | .left => .right
  | .right => .left

/-- A turn with a black uncle: `p` is the parent, `g` the grandparent. The parent is black
    afterwards, which ends the loop. -/
def rotateInsert (t : Colored α) (p g : Frame α) : Colored α :=
  -- an inner child changes places with its parent
  let top := if p.side = opposite g.side then rotate g.side (p.fill t) else p.fill t
  rotate (opposite g.side) ({ g with color := .red }.fill (top.paint .black))

/-- `fix_insert_collisions` up to painting the root. -/
def fixInsertCollisions (leafColor : Color) : Colored α → List (Frame α) → Color × Colored α
  | t, p :: g :: above =>
    if p.color = .red then
      if colorOf leafColor g.sibling = .red then
        let (leafColor, uncle) := setColor leafColor g.sibling .black
        fixInsertCollisions leafColor
          ({ g with color := .red, sibling := uncle }.fill ({ p with color := .black }.fill t)) above
      else (leafColor, plug above (rotateInsert t p g))
    else (leafColor, plug (p :: g :: above) t)
  | t, above => (leafColor, plug above t)

/-- Where a new node is put. -/
def placeFor (cmp : α → α → ℤ) (k : α) : Colored α → List (Frame α) → List (Frame α)
  | leaf, above => above
  | node c l x r, above =>
    if cmp k x < 0 then placeFor cmp k l (⟨.left, c, x, r⟩ :: above)
    else placeFor cmp k r (⟨.right, c, x, l⟩ :: above)

/-- `pico_tree_findKey` -/
def picoTreeFindKey (cmp : α → α → ℤ) (k : α) : Colored α → Option α
  | leaf => none
  | node _ l x r =>
    if cmp x k = 0 then some x
    else if cmp x k < 0 then picoTreeFindKey cmp k r
    else picoTreeFindKey cmp k l

/-- What `pico_tree_insert` returns: NULL, the element of that key, or `LEAF`. -/
inductive Inserted (α : Type*) where
  | null
  | present (x : α)
  | leaf
  deriving DecidableEq

/-- `alloc` is that there is memory for a node. -/
def picoTreeInsert (cmp : α → α → ℤ) (leafColor : Color) (t : Colored α) (k : α) (alloc : Bool) :
    Inserted α × Color × Colored α :=
  match picoTreeFindKey cmp k t with
  | some x => (.present x, leafColor, t)
  | none =>
    if alloc = false then (.leaf, leafColor, t)
    else
      let (leafColor, u) :=
        fixInsertCollisions leafColor (node .red leaf k leaf) (placeFor cmp k t [])
      (.null, leafColor, u.paint .black)

/-- A node: its colour, its element, its subtrees and the nodes above. -/
structure Place (α : Type*) where
  color : Color
  l : Colored α
  x : α
  r : Colored α
  above : List (Frame α)

/-- `findNode`, with the path to what it finds. -/
def picoTreeFindNode (cmp : α → α → ℤ) (k : α) : Colored α → List (Frame α) → Option (Place α)
  | leaf, _ => none
  | node c l x r, above =>
    if cmp x k = 0 then some ⟨c, l, x, r, above⟩
    else if cmp x k < 0 then picoTreeFindNode cmp k r (⟨.right, c, x, l⟩ :: above)
    else picoTreeFindNode cmp k l (⟨.left, c, x, r⟩ :: above)

/-- The first node of a tree that has one. -/
def picoTreeFirstNode : Color → Colored α → α → Colored α → List (Frame α) → Place α
  | c, leaf, x, r, above => ⟨c, leaf, x, r, above⟩
  | c, node d ll y lr, x, r, above => picoTreeFirstNode d ll y lr (⟨.left, c, x, r⟩ :: above)

/-- `pico_tree_delete_check_switch` and `pico_tree_delete_node`: the colour of the node that went from
    its place, and the place of the subtree that came there. With two children the next node `min`
    takes the place of `d` and its colour, so that the nodes above `min` stand below it. -/
def picoTreeDeleteCheckSwitch (d : Place α) : Color × Colored α × List (Frame α) :=
  match d.l, d.r with
  | leaf, r => (d.color, r, d.above)
  | l, leaf => (d.color, l, d.above)
  | l, node c rl y rr =>
    let min := picoTreeFirstNode c rl y rr []
    (min.color, min.r, min.above ++ ⟨.right, d.color, min.x, l⟩ :: d.above)

/-- The first part of a turn of `fix_delete_collisions`: a red sibling moves up. The nodes above the
    place afterwards begin with the parent. -/
def liftSibling (leafColor : Color) (p : Frame α) (above : List (Frame α)) :
    Color × Frame α × List (Frame α) :=
  if colorOf leafColor p.sibling = .red then
    match p.sibling with
    | leaf => (.black, { p with color := .red }, above)
    | node _ l y r =>
      match p.side with
      | .left => (leafColor, ⟨.left, .red, p.x, l⟩, ⟨.left, .black, y, r⟩ :: above)
      | .right => (leafColor, ⟨.right, .red, p.x, r⟩, ⟨.right, .black, y, l⟩ :: above)
  else (leafColor, p, above)

/-- The child of the sibling that is not on the side of the place. -/
def farChild : Side → Colored α → Colored α
  | .left, t => rightChild t
  | .right, t => leftChild t

/-- `c` for the child on the far side. -/
def setFar (leafColor : Color) (side : Side) (t : Colored α) (c : Color) : Color × Colored α :=
  match side, t with
  | _, leaf => (c, leaf)
  | .left, node d l x r => ((setColor leafColor r c).1, node d l x (setColor leafColor r c).2)
  | .right, node d l x r => ((setColor leafColor l c).1, node d (setColor leafColor l c).2 x r)

/-- The sibling with a far child that is not black: a near child that is red is painted black, the
    sibling red, and they change places. -/
def straighten (leafColor : Color) (p : Frame α) : Color × Colored α :=
  if colorOf leafColor (farChild p.side p.sibling) = .black then
    let temp := setFar leafColor (opposite p.side) p.sibling .black
    (temp.1, rotate (opposite p.side) (temp.2.paint .red))
  else (leafColor, p.sibling)

/-- The last part of a turn: the sibling moves up, which ends the loop. -/
def rotateDelete (leafColor : Color) (t : Colored α) (p : Frame α) : Color × Colored α :=
  let temp := straighten leafColor p
  let temp := setFar temp.1 p.side (temp.2.paint p.color) .black
  (temp.1, rotate p.side ({ p with color := .black, sibling := temp.2 }.fill t))

/-- `fix_delete_collisions`. A turn ends the loop, or it moves up by one node, so the number of nodes
    above bounds the turns. -/
def fixDeleteCollisions (leafColor : Color) : ℕ → Colored α → List (Frame α) → Color × Colored α
  | 0, t, above => (leafColor, plug above t)
  | n + 1, t, above =>
    match t, above with
    | node .black l x r, p :: above =>
      let (leafColor, p, above) := liftSibling leafColor p above
      if colorOf leafColor (leftChild p.sibling) = .black ∧
          colorOf leafColor (rightChild p.sibling) = .black then
        let (leafColor, temp) := setColor leafColor p.sibling .red
        fixDeleteCollisions leafColor n ({ p with sibling := temp }.fill (node .black l x r)) above
      else
        let (leafColor, u) := rotateDelete leafColor (node .black l x r) p
        (leafColor, (plug above u).paint .black)
    | t, above =>
      let (leafColor, t) := setColor leafColor t .black
      (leafColor, plug above t)

/-- Returns the element that went. -/
def picoTreeDelete (cmp : α → α → ℤ) (leafColor : Color) (t : Colored α) (k : α) :
    Option α × Color × Colored α :=
  match picoTreeFindNode cmp k t [] with
  | none => (none, leafColor, t)
  | some d =>
    let (color, temp, above) := picoTreeDeleteCheckSwitch d
    if color = .black then
      (some d.x, fixDeleteCollisions leafColor (above.length + 2) temp above)
    else (some d.x, leafColor, plug above temp)

/-- Up to the first node that is left by its left child. -/
def climb : Colored α → List (Frame α) → Option (Place α)
  | _, [] => none
  | t, f :: above =>
    match f.side with
    | .left => some ⟨f.color, t, f.x, f.sibling, above⟩
    | .right => climb (f.fill t) above

/-- The next node, or `LEAF`. -/
def picoTreeNext (p : Place α) : Option (Place α) :=
  match p.r with
  | leaf => climb (node p.color p.l p.x leaf) p.above
  | node c l x r => some (picoTreeFirstNode c l x r (⟨.right, p.color, p.x, p.l⟩ :: p.above))

/-- `pico_tree_foreach`; the number of nodes bounds the turns. -/
def picoTreeForeach : ℕ → Option (Place α) → List α
  | 0, _ => []
  | _ + 1, none => []
  | n + 1, some p => p.x :: picoTreeForeach n (picoTreeNext p)

/-- The smallest key and its place. -/
def first : Colored α → Option (Place α)
  | leaf => none
  | node c l x r => some (picoTreeFirstNode c l x r [])

variable {cmp : α → α → ℤ} {k x y : α} {c lc : Color} {l r t u : Colored α} {p g : Frame α}
  {above : List (Frame α)} {side : Side}

@[simp] theorem toList_setColor : (setColor lc t c).2.toList = t.toList := by
  cases t <;> rfl

@[simp] theorem toList_rotate : (rotate side t).toList = t.toList := by
  cases side with
  | left =>
    cases t with
    | leaf => rfl
    | node c l x r => cases r <;> simp [rotate, rotateToLeft]
  | right =>
    cases t with
    | leaf => rfl
    | node c l x r => cases l <;> simp [rotate, rotateToRight]

@[simp] theorem toList_setFar : (setFar lc side t c).2.toList = t.toList := by
  cases t with
  | leaf => cases side <;> rfl
  | node d l x r => cases side <;> simp [setFar]

/-- The elements of a subtree with the node above it. -/
def around (p : Frame α) (l : List α) : List α :=
  match p.side with
  | .left => l ++ p.x :: p.sibling.toList
  | .right => p.sibling.toList ++ p.x :: l

@[simp] theorem toList_fill : (p.fill t).toList = around p t.toList := by
  obtain ⟨side, c, y, s⟩ := p
  cases side <;> rfl

theorem before_around (l : List α) :
    before above ++ around p l ++ after above = before (p :: above) ++ l ++ after (p :: above) := by
  obtain ⟨side, c, y, s⟩ := p
  cases side <;> simp [around, before, after]

/-- Colours and equal siblings do not matter for the order. -/
theorem around_congr {q : Frame α} (hside : p.side = q.side) (hx : p.x = q.x)
    (hs : p.sibling.toList = q.sibling.toList) (l : List α) : around p l = around q l := by
  rw [around, around, hside, hx, hs]

theorem toList_rotateInsert : (rotateInsert t p g).toList = around g (around p t.toList) := by
  rw [rotateInsert, toList_rotate, toList_fill, toList_paint]
  split
  · rw [toList_rotate, toList_fill]
    exact around_congr rfl rfl rfl _
  · rw [toList_fill]
    exact around_congr rfl rfl rfl _

/-- FIX: repairing the colours after an insertion moves no element. -/
theorem toList_fixInsertCollisions :
    (fixInsertCollisions lc t above).2.toList = before above ++ t.toList ++ after above := by
  fun_induction fixInsertCollisions lc t above with
  | case1 lc t p g above hp hu lc' uncle hset ih =>
    have huncle : uncle.toList = g.sibling.toList := by
      have hsame : (setColor lc g.sibling .black).2.toList = g.sibling.toList := toList_setColor
      rwa [hset] at hsame
    rw [ih, toList_fill, toList_fill, ← before_around, ← before_around]
    rw [around_congr (p := { g with color := .red, sibling := uncle }) (q := g) rfl rfl huncle,
      around_congr (p := { p with color := .black }) (q := p) rfl rfl rfl]
  | case2 lc t p g above hp hu =>
    rw [toList_plug, toList_rotateInsert, before_around, before_around]
  | case3 lc t p g above hp => exact toList_plug
  | case4 lc t above hnot => exact toList_plug

theorem forget_node : (node c l x r).forget = .node l.forget x r.forget := rfl

theorem picoTreeFindKey_forget : picoTreeFindKey cmp k t = t.forget.findKey cmp k := by
  induction t with
  | leaf => rfl
  | node c l x r ihl ihr => rw [picoTreeFindKey, forget_node, KeyTree.findKey, ihl, ihr]

/-- The new node is where the search for its key ends. -/
theorem toList_placeFor (cmp : α → α → ℤ) (k : α) (t : Colored α) (above : List (Frame α)) :
    before (placeFor cmp k t above) ++ [k] ++ after (placeFor cmp k t above) =
      before above ++ (t.forget.place cmp k).toList ++ after above := by
  induction t generalizing above with
  | leaf => rfl
  | node c l x r ihl ihr =>
    rw [placeFor, forget_node, KeyTree.place]
    split
    · rw [ihl]
      simp [before, after, KeyTree.toList, Colored.toList]
    · rw [ihr]
      simp [before, after, KeyTree.toList, Colored.toList]

/-- INSERT does to the elements what it does in a tree without colours. -/
theorem picoTreeInsert_spec (cmp : α → α → ℤ) (lc : Color) (t : Colored α) (k : α) (alloc : Bool) :
    (picoTreeInsert cmp lc t k alloc).1 = (match t.forget.findKey cmp k with
      | some x => .present x
      | none => if alloc = false then .leaf else .null) ∧
    (picoTreeInsert cmp lc t k alloc).2.2.toList = (t.forget.insert cmp k alloc).toList := by
  rw [picoTreeInsert, picoTreeFindKey_forget, KeyTree.insert]
  cases t.forget.findKey cmp k with
  | some x => exact ⟨rfl, by simp [Colored.toList]⟩
  | none =>
    cases alloc with
    | false => exact ⟨rfl, by simp [Colored.toList]⟩
    | true =>
      refine ⟨rfl, ?_⟩
      have hplace := toList_placeFor cmp k t []
      simp only [before, after, List.nil_append, List.append_nil] at hplace
      simp [toList_fixInsertCollisions, hplace]

/-- FIND: the place of the node, and what deleting it means without colours. -/
theorem picoTreeFindNode_spec {d : Place α} (h : picoTreeFindNode cmp k t above = some d) :
    t.forget.findKey cmp k = some d.x ∧
      before d.above ++ (d.l.toList ++ d.r.toList) ++ after d.above =
        before above ++ (t.forget.delete cmp k).toList ++ after above := by
  induction t generalizing above with
  | leaf => cases h
  | node c l x r ihl ihr =>
    rw [picoTreeFindNode] at h
    rw [forget_node, KeyTree.findKey, KeyTree.delete]
    split at h
    · rename_i heq
      cases h
      rw [if_pos heq, if_pos heq, KeyTree.toList_join]
      exact ⟨rfl, rfl⟩
    · rename_i hne
      rw [if_neg hne, if_neg hne]
      split at h
      · rename_i hlt
        obtain ⟨hfind, hdel⟩ := ihr h
        rw [if_pos hlt, if_pos hlt, hdel]
        exact ⟨hfind, by simp [before, after, KeyTree.toList, Colored.toList]⟩
      · rename_i hge
        obtain ⟨hfind, hdel⟩ := ihl h
        rw [if_neg hge, if_neg hge, hdel]
        exact ⟨hfind, by simp [before, after, KeyTree.toList, Colored.toList]⟩

theorem picoTreeFindNode_none (h : picoTreeFindNode cmp k t above = none) :
    t.forget.findKey cmp k = none ∧ t.forget.delete cmp k = t.forget := by
  induction t generalizing above with
  | leaf => exact ⟨rfl, rfl⟩
  | node c l x r ihl ihr =>
    rw [picoTreeFindNode] at h
    rw [forget_node, KeyTree.findKey, KeyTree.delete]
    split at h
    · cases h
    · rename_i hne
      rw [if_neg hne, if_neg hne]
      split at h
      · rename_i hlt
        obtain ⟨hfind, hdel⟩ := ihr h
        rw [if_pos hlt, if_pos hlt, hdel]
        exact ⟨hfind, rfl⟩
      · rename_i hge
        obtain ⟨hfind, hdel⟩ := ihl h
        rw [if_neg hge, if_neg hge, hdel]
        exact ⟨hfind, rfl⟩

/-- The first node has nothing before it in its tree. -/
theorem picoTreeFirstNode_spec (c : Color) (l : Colored α) (x : α) (r : Colored α)
    (above : List (Frame α)) :
    before (picoTreeFirstNode c l x r above).above = before above ∧
      (picoTreeFirstNode c l x r above).l = leaf ∧
      (picoTreeFirstNode c l x r above).x :: (picoTreeFirstNode c l x r above).r.toList ++
        after (picoTreeFirstNode c l x r above).above =
      l.toList ++ x :: r.toList ++ after above := by
  induction l generalizing c x r above with
  | leaf => exact ⟨rfl, rfl, rfl⟩
  | node d ll y lr ihl _ =>
    rw [picoTreeFirstNode]
    obtain ⟨hbefore, hl, hafter⟩ := ihl d y lr (⟨.left, c, x, r⟩ :: above)
    refine ⟨hbefore, hl, ?_⟩
    rw [hafter]
    simp [after]

/-- SWITCH: only the element itself goes. -/
theorem picoTreeDeleteCheckSwitch_spec (d : Place α) :
    before (picoTreeDeleteCheckSwitch d).2.2 ++ (picoTreeDeleteCheckSwitch d).2.1.toList ++
        after (picoTreeDeleteCheckSwitch d).2.2 =
      before d.above ++ (d.l.toList ++ d.r.toList) ++ after d.above := by
  obtain ⟨c, l, x, r, above⟩ := d
  rw [picoTreeDeleteCheckSwitch]
  cases l with
  | leaf => simp
  | node lc ll y lr =>
    cases r with
    | leaf => simp
    | node rc rl z rr =>
      obtain ⟨hbefore, hleft, hafter⟩ := picoTreeFirstNode_spec rc rl z rr []
      simp only [before, after, List.append_nil] at hbefore hafter
      simp only [before_append, after_append, before, after, hbefore, List.append_nil, toList_node]
      generalize picoTreeFirstNode rc rl z rr [] = min at hafter
      rw [← hafter]
      simp

/-- A red sibling that moves up does not change the order. -/
theorem liftSibling_spec (lc : Color) (p : Frame α) (above : List (Frame α)) (l : List α) :
    before ((liftSibling lc p above).2.1 :: (liftSibling lc p above).2.2) ++ l ++
        after ((liftSibling lc p above).2.1 :: (liftSibling lc p above).2.2) =
      before (p :: above) ++ l ++ after (p :: above) := by
  obtain ⟨side, c, y, s⟩ := p
  rw [liftSibling]
  split
  · cases s with
    | leaf => cases side <;> simp [before, after]
    | node d sl z sr => cases side <;> simp [before, after]
  · rfl

@[simp] theorem toList_straighten : (straighten lc p).2.toList = p.sibling.toList := by
  rw [straighten]
  split
  · rw [toList_rotate, toList_paint, toList_setFar]
  · rfl

theorem toList_rotateDelete : (rotateDelete lc t p).2.toList = around p t.toList := by
  rw [rotateDelete, toList_rotate, toList_fill]
  refine around_congr ?_ ?_ ?_ _
  · rfl
  · rfl
  · simp only [toList_setFar, toList_paint, toList_straighten]

/-- FIX: repairing the colours after a deletion moves no element. -/
theorem toList_fixDeleteCollisions (n : ℕ) :
    (fixDeleteCollisions lc n t above).2.toList = before above ++ t.toList ++ after above := by
  induction n generalizing lc t above with
  | zero => exact toList_plug
  | succ n ih =>
    rw [fixDeleteCollisions.eq_def]
    simp only
    split
    · rename_i l x r p above
      have hlift := liftSibling_spec lc p above (node .black l x r).toList
      generalize liftSibling lc p above = lifted at hlift
      obtain ⟨lc', q, above'⟩ := lifted
      simp only at hlift ⊢
      rw [← hlift]
      split
      · rw [ih, toList_fill, ← before_around]
        rw [around_congr (p := { q with sibling := (setColor lc' q.sibling .red).2 }) (q := q) rfl rfl
          toList_setColor]
      · rw [toList_paint, toList_plug, toList_rotateDelete, before_around]
    · rw [toList_plug, toList_setColor]

/-- DELETE does to the elements what it does in a tree without colours. -/
theorem picoTreeDelete_spec (cmp : α → α → ℤ) (lc : Color) (t : Colored α) (k : α) :
    (picoTreeDelete cmp lc t k).1 = t.forget.findKey cmp k ∧
      (picoTreeDelete cmp lc t k).2.2.toList = (t.forget.delete cmp k).toList := by
  rw [picoTreeDelete]
  cases hfind : picoTreeFindNode cmp k t [] with
  | none =>
    obtain ⟨hkey, hdel⟩ := picoTreeFindNode_none hfind
    exact ⟨hkey.symm, by rw [hdel]; rfl⟩
  | some d =>
    obtain ⟨hkey, hdel⟩ := picoTreeFindNode_spec hfind
    have hswitch := picoTreeDeleteCheckSwitch_spec d
    rw [hdel] at hswitch
    simp only [before, after, List.nil_append, List.append_nil] at hswitch
    simp only
    split
    · exact ⟨hkey.symm, by simp only [toList_fixDeleteCollisions, hswitch]⟩
    · exact ⟨hkey.symm, by simp only [toList_plug, hswitch]⟩

/-- What is left to visit from a node on. -/
def remaining : Option (Place α) → List α
  | none => []
  | some p => p.x :: p.r.toList ++ after p.above

/-- Going up finds the rest of the tree. -/
theorem remaining_climb : remaining (climb t above) = after above := by
  induction above generalizing t with
  | nil => rfl
  | cons f above ih =>
    obtain ⟨side, c, y, s⟩ := f
    cases side with
    | left => rfl
    | right => exact ih

theorem remaining_next (d : Place α) :
    remaining (picoTreeNext d) = d.r.toList ++ after d.above := by
  obtain ⟨c, l, x, r, above⟩ := d
  rw [picoTreeNext]
  cases r with
  | leaf => exact remaining_climb
  | node rc rl y rr =>
    obtain ⟨-, -, hafter⟩ := picoTreeFirstNode_spec rc rl y rr (⟨.right, c, x, l⟩ :: above)
    exact hafter

theorem picoTreeForeach_spec {n : ℕ} {o : Option (Place α)} (hn : (remaining o).length ≤ n) :
    picoTreeForeach n o = remaining o := by
  induction n generalizing o with
  | zero =>
    rw [Nat.le_zero, List.length_eq_zero_iff] at hn
    rw [hn, picoTreeForeach]
  | succ n ih =>
    cases o with
    | none => rfl
    | some d =>
      have hnext := remaining_next d
      rw [picoTreeForeach, ih, hnext]
      · rfl
      · rw [hnext]
        exact Nat.le_of_succ_le_succ hn

/-- WALK: `pico_tree_foreach` visits the elements in order. -/
theorem picoTreeForeach_first {n : ℕ} (hn : t.toList.length ≤ n) :
    picoTreeForeach n (first t) = t.toList := by
  have hfirst : remaining (first t) = t.toList := by
    cases t with
    | leaf => rfl
    | node c l x r =>
      obtain ⟨-, -, hafter⟩ := picoTreeFirstNode_spec c l x r []
      simp only [after, List.append_nil] at hafter
      exact hafter
  rw [picoTreeForeach_spec (by rwa [hfirst]), hfirst]

end FdPicotcp.Tree
