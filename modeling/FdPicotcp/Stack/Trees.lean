import FdPicotcp.Lib.Transition
import FdPicotcp.Stack.Tree

/-! The trees of the stack together (`stack/pico_tree.c`).

    The first part is about colours: an insertion leaves a red-black tree, and a deletion does unless
    it takes out a black node without children. The second is about all trees of the stack, which have
    elements and comparators of their own and share `LEAF`: whatever is done to them and whatever
    colour `LEAF` has come to, each is a map from keys to elements. -/

namespace FdPicotcp.Tree
open SearchTree ColorTree ColorTree.Colored Transition

section Colours

variable {α : Type*} {cmp : α → α → ℤ} {k : α} {c lc : Color} {l r t : Colored α} {x : α} {p g : Frame α}
  {above : List (Frame α)}

theorem colorOf_black (t : Colored α) : colorOf .black t = t.root := by
  cases t <;> rfl

/-- A turn with a black uncle ends in a balanced tree. -/
theorem rotateInsert_balanced {n : ℕ} (ht : Balanced t .red n) (hcolor : p.color = .red)
    (hp : Balanced p.sibling .black n) (hg : Balanced g.sibling .black n) :
    Balanced (rotateInsert t p g) .black (n + 1) := by
  obtain ⟨pside, pc, px, ps⟩ := p
  obtain ⟨gside, gc, gx, gs⟩ := g
  subst hcolor
  cases ht with
  | red hl hr =>
    cases pside with
    | left =>
      cases gside with
      | left => exact .black (.red hl hr) (.red hp hg)
      | right => exact .black (.red hg hl) (.red hr hp)
    | right =>
      cases gside with
      | left => exact .black (.red hp hl) (.red hr hg)
      | right => exact .black (.red hg hp) (.red hl hr)

/-- The uncle of a red parent is painted black and the grandparent red. -/
theorem recolour_balanced {n : ℕ} (ht : Balanced t .red n) (hp : Balanced p.sibling .black n)
    (hg : ∃ d, Balanced g.sibling d n) (hu : g.sibling.root = .red) :
    (setColor .black g.sibling .black).1 = .black ∧
      Balanced ({ g with color := .red, sibling := (setColor .black g.sibling .black).2 }.fill
        ({ p with color := .black }.fill t)) .red (n + 1) := by
  obtain ⟨d, hg⟩ := hg
  have hparent : Balanced ({ p with color := .black }.fill t) .black (n + 1) :=
    ht.fill_black ⟨_, hp⟩ rfl
  obtain ⟨side, color, x, s⟩ := g
  cases hg with
  | leaf => cases hu
  | black hl hr => cases hu
  | red hl hr => exact ⟨rfl, hparent.fill_red (.black hl hr) rfl⟩

/-- INSERT: a red node where it fits leaves a balanced tree, and `LEAF` black. -/
theorem fixInsertCollisions_balanced {n : ℕ} (hlc : lc = .black) (ht : Balanced t .red n)
    (hf : Fits above n) :
    (fixInsertCollisions lc t above).1 = .black ∧
      ∃ m, Balanced ((fixInsertCollisions lc t above).2.paint .black) .black m := by
  fun_induction fixInsertCollisions lc t above generalizing n with
  | case1 lc t p g above hp hu lc' uncle hset ih =>
    subst hlc
    rw [Fits, hp] at hf
    obtain ⟨hps, hblack, hf⟩ := hf
    rw [BlackAbove] at hblack
    rw [Fits, hblack] at hf
    rw [colorOf_black] at hu
    have hnext := recolour_balanced ht hps hf.1 hu
    rw [hset] at hnext
    exact ih hnext.1 hnext.2 hf.2
  | case2 lc t p g above hp hu =>
    subst hlc
    rw [Fits, hp] at hf
    obtain ⟨hps, hblack, hf⟩ := hf
    rw [BlackAbove] at hblack
    rw [Fits, hblack] at hf
    obtain ⟨⟨d, hgs⟩, hf⟩ := hf
    rw [colorOf_black, hgs.root] at hu
    have hd : d = .black := by
      cases d with
      | red => exact absurd rfl hu
      | black => rfl
    subst hd
    obtain ⟨e, m, hwhole⟩ := (rotateInsert_balanced ht hp hps hgs).plug hf (.inl rfl)
    exact ⟨rfl, hwhole.paint_black⟩
  | case3 lc t p g above hp =>
    have hblack : p.color = .black := by
      cases hcolor : p.color with
      | red => exact absurd hcolor hp
      | black => rfl
    obtain ⟨e, m, hwhole⟩ := ht.plug hf (.inr hblack)
    exact ⟨hlc, hwhole.paint_black⟩
  | case4 lc t above hnot =>
    cases above with
    | nil => exact ⟨hlc, ht.paint_black⟩
    | cons p above =>
      cases above with
      | nil => exact ⟨hlc, ht.paint_fill hf⟩
      | cons g above => exact absurd rfl (hnot p g above)

/-- A new node fits where the search for its key ends. -/
theorem fits_placeFor {n : ℕ} (ht : Balanced t c n) (hf : Fits above n)
    (hc : c = .black ∨ BlackAbove above) : Fits (placeFor cmp k t above) 0 := by
  induction ht generalizing above with
  | leaf => exact hf
  | red hl hr ihl ihr =>
    have habove : BlackAbove above := hc.resolve_left (by simp)
    rw [placeFor]
    split
    · exact ihl ⟨hr, habove, hf⟩ (.inl rfl)
    · exact ihr ⟨hl, habove, hf⟩ (.inl rfl)
  | black hl hr ihl ihr =>
    rw [placeFor]
    split
    · exact ihl ⟨⟨_, hr⟩, hf⟩ (.inr rfl)
    · exact ihr ⟨⟨_, hl⟩, hf⟩ (.inr rfl)

/-- Red-black with a black root. -/
def RedBlack (t : Colored α) : Prop := ∃ m, Balanced t .black m

theorem RedBlack.insert (h : RedBlack t) (cmp : α → α → ℤ) (k : α) (alloc : Bool) :
    (picoTreeInsert cmp .black t k alloc).2.1 = .black ∧
      RedBlack (picoTreeInsert cmp .black t k alloc).2.2 := by
  obtain ⟨m, hm⟩ := h
  rw [picoTreeInsert]
  cases picoTreeFindKey cmp k t with
  | some x => exact ⟨rfl, m, hm⟩
  | none =>
    cases alloc with
    | false => exact ⟨rfl, m, hm⟩
    | true =>
      have hplace : Fits (placeFor cmp k t []) 0 := fits_placeFor hm trivial (.inl rfl)
      exact fixInsertCollisions_balanced rfl (.red .leaf .leaf) hplace

/-- FIND: the place found is a place in the tree. -/
theorem plug_findNode {d : Place α} (h : picoTreeFindNode cmp k t above = some d) :
    plug d.above (node d.color d.l d.x d.r) = plug above t := by
  induction t generalizing above with
  | leaf => cases h
  | node c l x r ihl ihr =>
    rw [picoTreeFindNode] at h
    split at h
    · cases h
      rfl
    · split at h
      · exact ihr h
      · exact ihl h

theorem plug_firstNode (c : Color) (l : Colored α) (x : α) (r : Colored α) (above : List (Frame α)) :
    plug (picoTreeFirstNode c l x r above).above (node (picoTreeFirstNode c l x r above).color
      leaf (picoTreeFirstNode c l x r above).x (picoTreeFirstNode c l x r above).r) =
      plug above (node c l x r) := by
  induction l generalizing c x r above with
  | leaf => rfl
  | node d ll y lr ihl _ => exact ihl d y lr (⟨.left, c, x, r⟩ :: above)

/-- A node with at most one child in a balanced tree: if it is red it has none, if it is black its
    child is red and has none. -/
inductive Spliced : Color → Colored α → ℕ → Prop where
  | red : Spliced .red leaf 0
  | childless : Spliced .black leaf 1
  | child (x : α) : Spliced .black (node .red leaf x leaf) 1

theorem Spliced.of_left {n : ℕ} (h : Balanced (node c leaf x r) c n) : Spliced c r n := by
  cases h with
  | red hl hr =>
    cases hl
    cases hr
    exact .red
  | black hl hr =>
    cases hl
    cases hr with
    | leaf => exact .childless
    | red hrl hrr =>
      cases hrl
      cases hrr
      exact .child _

theorem Spliced.of_right {n : ℕ} (h : Balanced (node c l x leaf) c n) : Spliced c l n := by
  cases h with
  | red hl hr =>
    cases hr
    cases hl
    exact .red
  | black hl hr =>
    cases hr
    cases hl with
    | leaf => exact .childless
    | red hll hlr =>
      cases hll
      cases hlr
      exact .child _

/-- SPLICE: the node that goes from its place, where it stood in the tree. -/
theorem spliced {d : Place α} {e : Color} {m : ℕ}
    (h : Balanced (plug d.above (node d.color d.l d.x d.r)) e m) :
    ∃ n, Spliced (picoTreeDeleteCheckSwitch d).1 (picoTreeDeleteCheckSwitch d).2.1 n ∧
      Fits (picoTreeDeleteCheckSwitch d).2.2 n ∧
      ((picoTreeDeleteCheckSwitch d).1 = .black ∨ BlackAbove (picoTreeDeleteCheckSwitch d).2.2) := by
  obtain ⟨c, l, x, r, above⟩ := d
  rw [picoTreeDeleteCheckSwitch]
  cases l with
  | leaf =>
    obtain ⟨b, n, hnode, hfits, habove⟩ := h.unplug
    have hroot : c = b := hnode.root
    subst hroot
    exact ⟨n, .of_left hnode, hfits, habove⟩
  | node lc ll y lr =>
    cases r with
    | leaf =>
      obtain ⟨b, n, hnode, hfits, habove⟩ := h.unplug
      have hroot : c = b := hnode.root
      subst hroot
      exact ⟨n, .of_right hnode, hfits, habove⟩
    | node rc rl z rr =>
      simp only
      have hmin := plug_firstNode rc rl z rr []
      generalize picoTreeFirstNode rc rl z rr [] = min at hmin
      have hwhole : plug (min.above ++ ⟨.right, c, x, node lc ll y lr⟩ :: above)
          (node min.color leaf min.x min.r) =
          plug above (node c (node lc ll y lr) x (node rc rl z rr)) := by
        rw [plug_append, hmin]
        rfl
      rw [← hwhole] at h
      obtain ⟨b, n, hnode, hfits, habove⟩ := h.unplug
      have hroot : min.color = b := hnode.root
      subst hroot
      obtain ⟨hfits_iff, habove_iff⟩ := fits_congr min.above
        ⟨.right, c, x, node lc ll y lr⟩ above min.x n
      exact ⟨n, .of_left hnode, hfits_iff.mp hfits, habove.imp_right habove_iff.mp⟩

/-- The root is another one only if the node that goes from its place is the root. -/
theorem root_switch {d : Place α} (h : (picoTreeDeleteCheckSwitch d).2.2 ≠ []) (t : Colored α) :
    (plug (picoTreeDeleteCheckSwitch d).2.2 t).root =
      (plug d.above (node d.color d.l d.x d.r)).root := by
  obtain ⟨c, l, x, r, above⟩ := d
  rw [picoTreeDeleteCheckSwitch] at h ⊢
  cases l with
  | leaf =>
    cases above with
    | nil => exact absurd rfl h
    | cons f above => exact root_plug ..
  | node lc ll y lr =>
    cases r with
    | leaf =>
      cases above with
      | nil => exact absurd rfl h
      | cons f above => exact root_plug ..
    | node rc rl z rr =>
      simp only [plug_append, plug]
      cases above with
      | nil => rfl
      | cons f above => exact root_plug f above _ _

/-- A node without children is taken out below the root, and it is black. -/
def BlackChildless (d : Place α) : Prop :=
  (picoTreeDeleteCheckSwitch d).1 = .black ∧ (picoTreeDeleteCheckSwitch d).2.1 = leaf ∧
    (picoTreeDeleteCheckSwitch d).2.2 ≠ []

theorem fixDeleteCollisions_leaf (n : ℕ) :
    fixDeleteCollisions lc (n + 1) leaf above = (.black, plug above leaf) := rfl

theorem fixDeleteCollisions_red (n : ℕ) :
    fixDeleteCollisions lc (n + 1) (node .red l x r) above =
      (lc, plug above (node .black l x r)) := rfl

/-- DELETE: a red-black tree stays one exactly if no black node without children is taken out below
    the root. Such a place is `LEAF`, for which `fix_delete_collisions` has no turn. -/
theorem RedBlack.delete_iff (h : RedBlack t) (cmp : α → α → ℤ) (k : α) :
    (picoTreeDelete cmp .black t k).2.1 = .black ∧
      (RedBlack (picoTreeDelete cmp .black t k).2.2 ↔
        ∀ d, picoTreeFindNode cmp k t [] = some d → ¬ BlackChildless d) := by
  obtain ⟨m, hm⟩ := h
  rw [picoTreeDelete]
  cases hfind : picoTreeFindNode cmp k t [] with
  | none => exact ⟨rfl, iff_of_true ⟨m, hm⟩ (by simp)⟩
  | some d =>
    have hplace : plug d.above (node d.color d.l d.x d.r) = t := plug_findNode hfind
    obtain ⟨n, hspliced, hfits, habove⟩ := spliced (by rw [hplace]; exact hm)
    have hroot : ∀ u, u.root = .black ∨ (picoTreeDeleteCheckSwitch d).2.2 ≠ [] →
        (plug (picoTreeDeleteCheckSwitch d).2.2 u).root = .black := by
      intro u hu
      by_cases hnil : (picoTreeDeleteCheckSwitch d).2.2 = []
      · rw [hnil]
        exact hu.resolve_right (not_not.mpr hnil)
      · rw [root_switch hnil, hplace, hm.root]
    simp only [Option.some.injEq, forall_eq', BlackChildless]
    generalize picoTreeDeleteCheckSwitch d = s at *
    obtain ⟨color, temp, above⟩ := s
    simp only at *
    cases hspliced with
    | red =>
      have hblack : BlackAbove above := habove.resolve_left (by simp)
      obtain ⟨e, k, hwhole⟩ := Balanced.leaf.plug hfits (.inl rfl)
      have he : e = .black := by rw [← hwhole.root, hroot leaf (.inl rfl)]
      subst he
      exact ⟨rfl, iff_of_true ⟨k, hwhole⟩ (by simp)⟩
    | childless =>
      rw [if_pos rfl, fixDeleteCollisions_leaf]
      refine ⟨rfl, ?_⟩
      cases above with
      | nil => exact iff_of_true ⟨0, .leaf⟩ (by simp)
      | cons f above =>
        refine iff_of_false ?_ (by simp)
        rintro ⟨k, hwhole⟩
        obtain ⟨e, n, hleaf, hfits', -⟩ := hwhole.unplug
        cases hleaf
        exact absurd (hfits.unique hfits') (by simp)
    | child y =>
      rw [if_pos rfl, fixDeleteCollisions_red]
      obtain ⟨e, k, hwhole⟩ := (Balanced.black .leaf .leaf).plug hfits (.inl rfl)
      have he : e = .black := by rw [← hwhole.root, hroot (node .black leaf y leaf) (.inl rfl)]
      subst he
      exact ⟨rfl, iff_of_true ⟨k, hwhole⟩ (by simp)⟩

end Colours

variable {ι : Type*} [DecidableEq ι] {α κ : ι → Type*} [∀ i, LinearOrder (κ i)]

/-- All trees and the colour of `LEAF`. -/
structure State (α : ι → Type*) where
  leafColor : Color
  trees : ∀ i, Colored (α i)

/-- A call on one of the trees. -/
inductive Act (α : ι → Type*) where
  | insert (i : ι) (k : α i) (alloc : Bool)
  | delete (i : ι) (k : α i)
  | findKey (i : ι) (k : α i)

/-- What a call returns. -/
inductive Out (α : ι → Type*) where
  | inserted (i : ι) (r : Inserted (α i))
  | deleted (i : ι) (o : Option (α i))
  | found (i : ι) (o : Option (α i))

/-- The call, with the colour that it leaves in `LEAF`. -/
def call (cmp : ∀ i, α i → α i → ℤ) (s : State α) : Act α → Out α × State α
  | .insert i k alloc =>
    let (res, leafColor, t) := picoTreeInsert (cmp i) s.leafColor (s.trees i) k alloc
    (.inserted i res, ⟨leafColor, Function.update s.trees i t⟩)
  | .delete i k =>
    let (res, leafColor, t) := picoTreeDelete (cmp i) s.leafColor (s.trees i) k
    (.deleted i res, ⟨leafColor, Function.update s.trees i t⟩)
  | .findKey i k => (.found i (picoTreeFindKey (cmp i) k (s.trees i)), s)

/-- No tree has an element yet. -/
def started (leafColor : Color) : State α := ⟨leafColor, fun _ => leaf⟩

/-- A series of calls: what each of them returns, and what the trees have become. -/
def calls (cmp : ∀ i, α i → α i → ℤ) : State α → List (Act α) → List (Out α) × State α
  | s, [] => ([], s)
  | s, a :: as => (calls cmp (call cmp s a).2 as).map ((call cmp s a).1 :: ·) id

/-- `pico_tree_insert` on a map from keys to elements. -/
def mapInsert {α κ : Type*} [DecidableEq κ] (key : α → κ) (m : κ → Option α) (k : α) (alloc : Bool) :
    Inserted α × (κ → Option α) :=
  match m (key k) with
  | some x => (.present x, m)
  | none =>
    if alloc = false then (.leaf, m) else (.null, Function.update m (key k) (some k))

/-- The same calls on maps from keys to elements. -/
def mapCall (key : ∀ i, α i → κ i) (m : ∀ i, κ i → Option (α i)) :
    Act α → Out α × (∀ i, κ i → Option (α i))
  | .insert i k alloc =>
    let (res, f) := mapInsert (key i) (m i) k alloc
    (.inserted i res, Function.update m i f)
  | .delete i k =>
    (.deleted i (m i (key i k)), Function.update m i (Function.update (m i) (key i k) none))
  | .findKey i k => (.found i (m i (key i k)), m)

/-- The same calls on the maps. -/
def mapCalls (key : ∀ i, α i → κ i) :
    (∀ i, κ i → Option (α i)) → List (Act α) → List (Out α) × (∀ i, κ i → Option (α i))
  | m, [] => ([], m)
  | m, a :: as => (mapCalls key (mapCall key m a).2 as).map ((mapCall key m a).1 :: ·) id

variable {cmp : ∀ i, α i → α i → ℤ} {key : ∀ i, α i → κ i} {s : State α}
  {m : ∀ i, κ i → Option (α i)}

/-- Every tree holds the elements of its map. -/
def AllRepresent (key : ∀ i, α i → κ i) (s : State α) (m : ∀ i, κ i → Option (α i)) : Prop :=
  ∀ i, Represents (key i) (s.trees i).forget (m i)

theorem AllRepresent.update (h : AllRepresent key s m) {i : ι} {t : Colored (α i)}
    {f : κ i → Option (α i)} (ht : Represents (key i) t.forget f) (leafColor : Color) :
    AllRepresent key ⟨leafColor, Function.update s.trees i t⟩ (Function.update m i f) := by
  intro j
  by_cases hj : j = i
  · subst hj
    simpa using ht
  · simpa [hj] using h j

/-- INSERT into a tree that holds the elements of a map. -/
theorem picoTreeInsert_represents {α κ : Type*} [LinearOrder κ] {cmp : α → α → ℤ} {key : α → κ}
    {t : Colored α} {m : κ → Option α} (ho : Orders cmp key) (h : Represents key t.forget m)
    (leafColor : Color) (k : α) (alloc : Bool) :
    (picoTreeInsert cmp leafColor t k alloc).1 = (mapInsert key m k alloc).1 ∧
      Represents key (picoTreeInsert cmp leafColor t k alloc).2.2.forget
        (mapInsert key m k alloc).2 := by
  obtain ⟨hout, hlist⟩ := picoTreeInsert_spec cmp leafColor t k alloc
  have hfind := h.findKey ho k
  rw [hfind] at hout
  rw [KeyTree.insert, hfind] at hlist
  rw [mapInsert]
  cases hm : m (key k) with
  | some x =>
    rw [hm] at hout hlist
    rw [if_pos (by simp)] at hlist
    exact ⟨hout, h.of_toList hlist⟩
  | none =>
    rw [hm] at hout hlist
    cases alloc with
    | false => exact ⟨hout, h.of_toList hlist⟩
    | true =>
      have hinsert := h.insert ho hm
      rw [KeyTree.insert, hfind, hm] at hinsert
      exact ⟨hout, hinsert.of_toList hlist⟩

/-- STEP: a call on the trees returns what the call on the maps does. -/
theorem call_spec (ho : ∀ i, Orders (cmp i) (key i)) (h : AllRepresent key s m) (a : Act α) :
    (call cmp s a).1 = (mapCall key m a).1 ∧
      AllRepresent key (call cmp s a).2 (mapCall key m a).2 := by
  cases a with
  | insert i k alloc =>
    obtain ⟨hout, hrep⟩ := picoTreeInsert_represents (ho i) (h i) s.leafColor k alloc
    rw [call, mapCall]
    exact ⟨congrArg (Out.inserted i) hout, h.update hrep _⟩
  | delete i k =>
    obtain ⟨hout, hlist⟩ := picoTreeDelete_spec (cmp i) s.leafColor (s.trees i) k
    rw [(h i).findKey (ho i)] at hout
    rw [call, mapCall]
    exact ⟨congrArg (Out.deleted i) hout, h.update (((h i).delete (ho i) k).of_toList hlist) _⟩
  | findKey i k =>
    rw [call, mapCall, picoTreeFindKey_forget, (h i).findKey (ho i)]
    exact ⟨rfl, h⟩

/-- RUN: so does every series of calls. -/
theorem calls_spec (ho : ∀ i, Orders (cmp i) (key i)) (h : AllRepresent key s m) (as : List (Act α)) :
    (calls cmp s as).1 = (mapCalls key m as).1 ∧
      AllRepresent key (calls cmp s as).2 (mapCalls key m as).2 := by
  induction as generalizing s m with
  | nil => exact ⟨rfl, h⟩
  | cons a as ih =>
    obtain ⟨hout, hnext⟩ := call_spec ho h a
    obtain ⟨houts, hrest⟩ := ih hnext
    rw [calls, mapCalls, hout, Prod.map_fst, Prod.map_fst, houts]
    exact ⟨rfl, hrest⟩

/-- MAPS: trees that share `LEAF`, of whatever colour, are maps from keys to elements. Every call
    returns what it would return there, and a walk through a tree meets the elements of its map in the
    order of their keys. -/
theorem trees_are_maps (ho : ∀ i, Orders (cmp i) (key i)) (leafColor : Color) (as : List (Act α)) :
    (calls cmp (started leafColor) as).1 = (mapCalls key (fun _ _ => none) as).1 ∧
      ∀ i, ∃ l : List (α i), l.Pairwise (fun x y => key i x < key i y) ∧
        (∀ n, l.length ≤ n →
          picoTreeForeach n (first ((calls cmp (started leafColor) as).2.trees i)) = l) ∧
        ∀ q x, (mapCalls key (fun _ _ => none) as).2 i q = some x ↔ x ∈ l ∧ key i x = q := by
  have hstart : AllRepresent key (started leafColor : State α) fun _ _ => none :=
    fun i => represents_leaf
  obtain ⟨hout, hrep⟩ := calls_spec ho hstart as
  refine ⟨hout, fun i => ?_⟩
  obtain ⟨hsorted, hmem⟩ := hrep i
  exact ⟨_, hsorted, fun n hn => picoTreeForeach_first hn, hmem⟩

theorem orders_sub : Orders (fun a b : ℤ => a - b) id := by
  constructor
  · intro a b
    rw [id, id]
    omega
  · intro a b
    rw [id, id]
    omega

theorem trees_are_maps_two :
    (calls (fun _ a b => a - b) (started .red)
        [.insert true (1 : ℤ) true, .insert true 2 true, .insert true 1 true, .delete true 1,
          .findKey true 2, .findKey false 2] : List (Out fun _ : Bool => ℤ) × _).1 =
      [.inserted true .null, .inserted true .null, .inserted true (.present 1), .deleted true (some 1),
        .found true (some 2), .found false none] :=
  (trees_are_maps (fun _ => orders_sub) .red _).1.trans rfl

/-- All trees are red-black and `LEAF` is black. -/
def AllRedBlack (s : State α) : Prop := s.leafColor = .black ∧ ∀ i, RedBlack (s.trees i)

/-- A deletion that takes out no black node without children below the root. -/
def Repaired (cmp : ∀ i, α i → α i → ℤ) (s : State α) : Act α → Prop
  | .delete i k =>
    ∀ d, picoTreeFindNode (cmp i) k (s.trees i) [] = some d → ¬ BlackChildless d
  | _ => True

/-- Calls as steps of a system. -/
def step (cmp : ∀ i, α i → α i → ℤ) (s : State α) (a : Act α) : Option (State α) :=
  some (call cmp s a).2

theorem run_step (s : State α) (as : List (Act α)) :
    run (step cmp) s as = some (calls cmp s as).2 := by
  induction as generalizing s with
  | nil => rfl
  | cons a as ih => exact ih (call cmp s a).2

theorem redBlack_update {leafColor : Color} {i : ι} {t : Colored (α i)} (h : AllRedBlack s)
    (hleaf : leafColor = .black) :
    AllRedBlack ⟨leafColor, Function.update s.trees i t⟩ ↔ RedBlack t := by
  constructor
  · rintro ⟨-, htrees⟩
    have ht := htrees i
    simpa using ht
  · intro ht
    refine ⟨hleaf, fun j => ?_⟩
    by_cases hj : j = i
    · subst hj
      simpa using ht
    · simpa [hj] using h.2 j

/-- STEP: a call leaves the trees red-black exactly if a deletion is repaired. -/
theorem call_redBlack (h : AllRedBlack s) (a : Act α) :
    AllRedBlack (call cmp s a).2 ↔ Repaired cmp s a := by
  obtain ⟨leafColor, trees⟩ := s
  obtain ⟨hleaf, htrees⟩ := h
  simp only at hleaf
  subst hleaf
  cases a with
  | insert i k alloc =>
    obtain ⟨hleaf, ht⟩ := (htrees i).insert (cmp i) k alloc
    exact iff_of_true ((redBlack_update ⟨rfl, htrees⟩ hleaf).mpr ht) trivial
  | delete i k =>
    obtain ⟨hleaf, hiff⟩ := (htrees i).delete_iff (cmp i) k
    exact (redBlack_update ⟨rfl, htrees⟩ hleaf).trans hiff
  | findKey i k => exact iff_of_true ⟨rfl, htrees⟩ trivial

/-- BALANCE: from empty trees, all trees stay red-black exactly as long as no deletion takes out a
    black node without children below the root; up to then none is more than twice as high as the
    number of its elements needs. -/
theorem balanced_iff_repaired (cmp : ∀ i, α i → α i → ℤ) (as : List (Act α)) :
    (Everywhere (step cmp) AllRedBlack (started .black) as ↔
        Meets (step cmp) (Repaired cmp) (started .black) as) ∧
      (Meets (step cmp) (Repaired cmp) (started .black) as →
        ∀ i, 2 ^ ((calls cmp (started .black) as).2.trees i).height ≤
          (((calls cmp (started .black) as).2.trees i).size + 1) ^ 2) := by
  have hr : run (step cmp) (started .black) as = some (calls cmp (started .black) as).2 :=
    run_step _ as
  have hstart : AllRedBlack (started .black : State α) := ⟨rfl, fun i => ⟨0, .leaf⟩⟩
  have hstep : ∀ s a t, True → AllRedBlack s → step cmp s a = some t →
      True ∧ (AllRedBlack t ↔ Repaired cmp s a) := by
    intro s a t _ hs hstep
    rw [step, Option.some.injEq] at hstep
    subst hstep
    exact ⟨trivial, call_redBlack hs a⟩
  have hiff := everywhere_iff_meets (I := fun _ => True) hstep trivial hstart hr
  refine ⟨hiff, fun hm i => ?_⟩
  obtain ⟨m, hbal⟩ := (hiff.mpr hm as [] _ (List.append_nil as).symm hr).2 i
  exact hbal.height_log

end FdPicotcp.Tree
