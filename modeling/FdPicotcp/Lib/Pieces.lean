import Mathlib.Algebra.Order.Ring.Nat
import Mathlib.Data.List.Sort
import Mathlib.Tactic.Common

/-! Pieces of a stream that arrive out of order.

    A stream is a function of the position, `slice` its bytes from a position on. A piece is a
    non-empty range of positions. `Apart` says that a list of pieces is in order and that no two of
    them overlap. `reach ps k` is the position up to which the pieces carry on from `k` without a
    gap: placing a piece beyond a gap does not move it, placing one at its end moves it over
    everything that is there already (`walk`). -/

namespace Pieces

/-- The `n` elements from position `k` on. -/
def slice {β : Type*} (S : ℕ → β) (k n : ℕ) : List β := (List.range' k n).map S

/-- The positions from `start` up to `stop`. -/
structure Piece where
  start : ℕ
  stop : ℕ
  lt : start < stop

/-- `n + 1` positions. -/
def Piece.ofLen (start n : ℕ) : Piece := ⟨start, start + n + 1, by omega⟩

/-- The number of positions. -/
def Piece.len (p : Piece) : ℕ := p.stop - p.start

/-- In order, and without overlap. -/
def Apart (ps : List Piece) : Prop := ps.Pairwise fun p q => p.stop ≤ q.start

/-- Either the same piece or no position in common. -/
def Separate (p q : Piece) : Prop := p = q ∨ p.stop ≤ q.start ∨ q.stop ≤ p.start

/-- A piece that begins no later than `k` carries on to its end. -/
def advance (k : ℕ) (p : Piece) : ℕ := if p.start ≤ k then max k p.stop else k

/-- How far the pieces carry on from `k` without a gap. -/
def reach (ps : List Piece) (k : ℕ) : ℕ := ps.foldl advance k

/-- How many positions there are in all. -/
def covered (ps : List Piece) : ℕ := (ps.map Piece.len).sum

/-- In the order of the starts. -/
def place (p : Piece) (ps : List Piece) : List Piece :=
  ps.orderedInsert (fun p q => p.start < q.start) p

/-- Step from piece to piece while one starts where the last one stopped. -/
def walk (ps : List Piece) : ℕ → ℕ → ℕ
  | 0, k => k
  | n + 1, k =>
    match ps.find? fun p => p.start = k with
    | none => k
    | some p => walk ps n p.stop

variable {β : Type*} {S : ℕ → β} {p q : Piece} {ps qs : List Piece} {k m n : ℕ}

@[simp] theorem slice_zero : slice S k 0 = [] := rfl

@[simp] theorem length_slice : (slice S k n).length = n := by simp [slice]

theorem slice_append : slice S k m ++ slice S (k + m) n = slice S k (m + n) := by
  rw [slice, slice, slice, ← List.map_append, List.range'_append_1]

theorem drop_slice : (slice S k n).drop m = slice S (k + m) (n - m) := by
  rw [slice, slice, ← List.map_drop, List.drop_range', Nat.mul_one]

theorem take_slice (h : m ≤ n) : (slice S k n).take m = slice S k m := by
  rw [slice, slice, ← List.map_take, List.take_range'_of_length_ge h]

theorem Piece.start_add_len (p : Piece) : p.start + p.len = p.stop := by
  have := p.lt
  rw [len]
  omega

theorem Piece.len_pos (p : Piece) : 0 < p.len := by
  have := p.start_add_len
  have := p.lt
  omega

theorem Separate.symm (h : Separate p q) : Separate q p := by
  rcases h with rfl | h | h
  · exact .inl rfl
  · exact .inr (.inr h)
  · exact .inr (.inl h)

@[simp] theorem covered_nil : covered [] = 0 := rfl

@[simp] theorem covered_cons : covered (p :: ps) = p.len + covered ps := rfl

@[simp] theorem reach_nil : reach [] k = k := rfl

theorem reach_cons : reach (p :: ps) k = reach ps (advance k p) := rfl

theorem reach_append : reach (ps ++ qs) k = reach qs (reach ps k) := List.foldl_append

theorem le_advance (k : ℕ) (p : Piece) : k ≤ advance k p := by
  rw [advance]
  split <;> omega

theorem advance_of_lt (h : k < p.start) : advance k p = k := if_neg (by omega)

theorem advance_of_le (h : p.start ≤ k) (hk : k ≤ p.stop) : advance k p = p.stop := by
  rw [advance, if_pos h, max_eq_right hk]

theorem le_reach (ps : List Piece) (k : ℕ) : k ≤ reach ps k := by
  induction ps generalizing k with
  | nil => exact le_rfl
  | cons p ps ih => exact (le_advance k p).trans (ih (advance k p))

/-- The reach is bounded by what the pieces cover. -/
theorem reach_le (ps : List Piece) (k : ℕ) : reach ps k ≤ k + covered ps := by
  induction ps generalizing k with
  | nil => exact le_rfl
  | cons p ps ih =>
    have hp := p.start_add_len
    have ih := ih (advance k p)
    have hadv : advance k p ≤ k + p.len := by
      rw [advance]
      split <;> omega
    rw [reach_cons, covered_cons]
    omega

theorem advance_mono (h : k ≤ m) (p : Piece) : advance k p ≤ advance m p := by
  rw [advance, advance]
  split <;> split <;> omega

theorem reach_mono (ps : List Piece) (h : k ≤ m) : reach ps k ≤ reach ps m := by
  induction ps generalizing k m with
  | nil => exact h
  | cons p ps ih => exact ih (advance_mono h p)

/-- Pieces beyond a gap are out of reach. -/
theorem reach_eq_self (h : ∀ p ∈ ps, k < p.start) : reach ps k = k := by
  induction ps with
  | nil => rfl
  | cons p ps ih =>
    rw [reach_cons, advance_of_lt (h p (List.mem_cons_self ..))]
    exact ih fun q hq => h q (List.mem_cons_of_mem p hq)

/-- A piece that the reach gets to is inside it. -/
theorem stop_le_reach (h : p ∈ ps) (hk : p.start ≤ k) : p.stop ≤ reach ps k := by
  induction ps generalizing k with
  | nil => cases h
  | cons q ps ih =>
    rw [reach_cons]
    rcases List.mem_cons.mp h with rfl | h
    · refine le_trans ?_ (le_reach ps _)
      rw [advance, if_pos hk]
      exact le_max_right ..
    · exact ih h (hk.trans (le_advance k q))

theorem apart_cons : Apart (p :: ps) ↔ (∀ q ∈ ps, p.stop ≤ q.start) ∧ Apart ps :=
  List.pairwise_cons

/-- Of pieces that are apart, one that starts below the end of the reach is inside it. -/
theorem Apart.separate (h : Apart ps) (hp : p ∈ ps) (hq : q ∈ ps) : Separate p q := by
  induction ps with
  | nil => cases hp
  | cons x xs ih =>
    obtain ⟨hx, hxs⟩ := List.pairwise_cons.mp h
    rcases List.mem_cons.mp hp with rfl | hps
    · rcases List.mem_cons.mp hq with rfl | hqs
      · exact .inl rfl
      · exact .inr (.inl (hx q hqs))
    · rcases List.mem_cons.mp hq with rfl | hqs
      · exact .inr (.inr (hx p hps))
      · exact ih hxs hps hqs

theorem Apart.stop_le_reach (ha : Apart ps) (h : p ∈ ps) (hk : p.start < reach ps k) :
    p.stop ≤ reach ps k := by
  induction ps generalizing k with
  | nil => cases h
  | cons q ps ih =>
    obtain ⟨hq, ha⟩ := apart_cons.mp ha
    rcases List.mem_cons.mp h with rfl | h
    · by_cases hle : p.start ≤ k
      · exact Pieces.stop_le_reach (List.mem_cons_self ..) hle
      · -- a piece beyond a gap hides all that follow it
        have hgap : ∀ r ∈ p :: ps, k < r.start := by
          intro r hr
          rcases List.mem_cons.mp hr with rfl | hr
          · omega
          · have := hq r hr
            have := p.lt
            omega
        rw [reach_eq_self hgap] at hk
        omega
    · rw [reach_cons] at hk ⊢
      exact ih ha h hk

/-- Of pieces that are apart, none starts at the end of the reach. -/
theorem Apart.start_ne_reach (ha : Apart ps) (h : p ∈ ps) : p.start ≠ reach ps k := by
  intro heq
  induction ps generalizing k with
  | nil => cases h
  | cons q ps ih =>
    obtain ⟨hq, ha⟩ := apart_cons.mp ha
    rcases List.mem_cons.mp h with rfl | h
    · have hp := p.lt
      by_cases hle : p.start ≤ k
      · have := Pieces.stop_le_reach (List.mem_cons_self (a := p) (l := ps)) hle
        omega
      · have hgap : ∀ r ∈ p :: ps, k < r.start := by
          intro r hr
          rcases List.mem_cons.mp hr with rfl | hr
          · omega
          · have := hq r hr
            omega
        rw [reach_eq_self hgap] at heq
        omega
    · exact ih ha h heq

/-- What is within reach is in one of the pieces. -/
theorem mem_of_lt_reach {i : ℕ} (hk : k ≤ i) (hi : i < reach ps k) :
    ∃ p ∈ ps, p.start ≤ i ∧ i < p.stop := by
  induction ps generalizing k with
  | nil =>
    rw [reach_nil] at hi
    omega
  | cons p ps ih =>
    rw [reach_cons] at hi
    by_cases hpi : p.start ≤ i ∧ i < p.stop
    · exact ⟨p, List.mem_cons_self .., hpi⟩
    · have hadv : advance k p ≤ i := by
        rw [advance]
        split <;> omega
      obtain ⟨q, hq, hqi⟩ := ih hadv hi
      exact ⟨q, List.mem_cons_of_mem p hq, hqi⟩

/-- Of pieces that are apart, none holds the end of the reach. -/
theorem Apart.reach_notMem (ha : Apart ps) (h : p ∈ ps) (hs : p.start ≤ reach ps k) :
    p.stop ≤ reach ps k := by
  have hne := ha.start_ne_reach (k := k) h
  exact ha.stop_le_reach h (by omega)

/-- Taking a few steps into the first piece does not change how far one gets. -/
theorem reach_inside (ps : List Piece) (hs : p.start ≤ k) (hk : k ≤ m) (hm : m ≤ p.stop) :
    reach (p :: ps) m = reach (p :: ps) k := by
  rw [reach_cons, reach_cons, advance_of_le (by omega) hm, advance_of_le hs (by omega)]

/-- Pieces that are apart do not cover more than the range they lie in. -/
theorem Apart.covered_le (ha : Apart ps) (hlo : ∀ p ∈ ps, k ≤ p.start) (hhi : ∀ p ∈ ps, p.stop ≤ m)
    (hkm : k ≤ m) : covered ps ≤ m - k := by
  induction ps generalizing k with
  | nil => exact Nat.zero_le _
  | cons p ps ih =>
    obtain ⟨hp, ha⟩ := apart_cons.mp ha
    have hstart := hlo p (List.mem_cons_self ..)
    have hstop := hhi p (List.mem_cons_self ..)
    have hlen := p.start_add_len
    have ih := ih ha hp (fun q hq => hhi q (List.mem_cons_of_mem p hq)) hstop
    rw [covered_cons]
    omega

/-- Pieces that are apart fit a range that is long enough for each of them. -/
theorem Apart.covered_le_of_starts (ha : Apart ps) (hlo : ∀ p ∈ ps, m ≤ p.start + n)
    (hhi : ∀ p ∈ ps, p.stop ≤ m) : covered ps ≤ n := by
  cases ps with
  | nil => exact Nat.zero_le n
  | cons p ps =>
    obtain ⟨hp, -⟩ := apart_cons.mp ha
    have hplt := p.lt
    have hstart := hlo p (List.mem_cons_self ..)
    have hstop := hhi p (List.mem_cons_self ..)
    have hge : ∀ q ∈ p :: ps, p.start ≤ q.start := by
      intro q hq
      rcases List.mem_cons.mp hq with rfl | hq
      · exact le_rfl
      · have := hp q hq
        omega
    have := ha.covered_le hge hhi (by omega)
    omega

/-- The reach does not go beyond the pieces. -/
theorem reach_le_stop (hk : k ≤ m) (hhi : ∀ p ∈ ps, p.stop ≤ m) : reach ps k ≤ m := by
  induction ps generalizing k with
  | nil => exact hk
  | cons p ps ih =>
    have hstop := hhi p (List.mem_cons_self ..)
    rw [reach_cons]
    refine ih ?_ fun q hq => hhi q (List.mem_cons_of_mem p hq)
    rw [advance]
    split <;> omega

/-- The reach is bounded from every piece that has not been passed. -/
theorem Apart.reach_le_start (ha : Apart ps) (hk : ∀ q ∈ ps, k ≤ q.stop) (h : p ∈ ps) :
    reach ps k ≤ p.start + covered ps := by
  cases ps with
  | nil => cases h
  | cons q ps =>
    obtain ⟨hq, -⟩ := apart_cons.mp ha
    have hbound := reach_le (q :: ps) k
    have hqk := hk q (List.mem_cons_self ..)
    rcases List.mem_cons.mp h with rfl | h
    · by_cases hle : p.start ≤ k
      · have := reach_inside ps le_rfl hle hqk
        have := reach_le (p :: ps) p.start
        omega
      · omega
    · have := hq p h
      omega

theorem place_split (p : Piece) (ps : List Piece) :
    ∃ l r, ps = l ++ r ∧ place p ps = l ++ p :: r ∧ (∀ q ∈ l, q.start ≤ p.start) ∧
      ∀ q ∈ r.head?, p.start < q.start := by
  induction ps with
  | nil => exact ⟨[], [], rfl, rfl, by simp, by simp⟩
  | cons q qs ih =>
    rw [place, List.orderedInsert_cons]
    split
    · exact ⟨[], q :: qs, rfl, rfl, by simp, by simpa⟩
    · obtain ⟨l, r, rfl, hplace, hl, hr⟩ := ih
      refine ⟨q :: l, r, rfl, congrArg (q :: ·) hplace, ?_, hr⟩
      intro x hx
      rcases List.mem_cons.mp hx with rfl | hx
      · omega
      · exact hl x hx

/-- PLACE among pieces that are apart: those before stop before it, those after start after it. -/
theorem Apart.place_split (ha : Apart ps) (hp : ∀ q ∈ ps, p ≠ q) (hsep : ∀ q ∈ ps, Separate p q) :
    ∃ l r, ps = l ++ r ∧ place p ps = l ++ p :: r ∧ (∀ q ∈ l, q.stop ≤ p.start) ∧
      ∀ q ∈ r, p.stop ≤ q.start := by
  obtain ⟨l, r, rfl, hplace, hl, hr⟩ := Pieces.place_split p ps
  have hplt := p.lt
  refine ⟨l, r, rfl, hplace, ?_, ?_⟩
  · intro q hq
    have hmem : q ∈ l ++ r := List.mem_append_left r hq
    have hstart := hl q hq
    rcases hsep q hmem with heq | hbefore | hafter
    · exact absurd heq (hp q hmem)
    · have := q.lt
      omega
    · exact hafter
  · intro q hq
    have hmem : q ∈ l ++ r := List.mem_append_right l hq
    have hqlt := q.lt
    -- the first piece of the rest starts beyond `p`, and the others beyond that one
    have hstart : p.start < q.start := by
      cases r with
      | nil => cases hq
      | cons x r =>
        have hx := hr x rfl
        rcases List.mem_cons.mp hq with rfl | hq
        · exact hx
        · have hxr := ((List.pairwise_append.mp ha).2.1)
          have := (apart_cons.mp hxr).1 q hq
          have := x.lt
          omega
    rcases hsep q hmem with heq | hbefore | hafter
    · exact absurd heq (hp q hmem)
    · exact hbefore
    · omega

theorem Apart.place (ha : Apart ps) (hp : ∀ q ∈ ps, p ≠ q) (hsep : ∀ q ∈ ps, Separate p q) :
    Apart (place p ps) := by
  obtain ⟨l, r, rfl, hplace, hl, hr⟩ := ha.place_split hp hsep
  obtain ⟨hal, har, hlr⟩ := List.pairwise_append.mp ha
  rw [hplace]
  refine List.pairwise_append.mpr ⟨hal, apart_cons.mpr ⟨hr, har⟩, ?_⟩
  intro x hx y hy
  rcases List.mem_cons.mp hy with rfl | hy
  · exact hl x hx
  · exact hlr x hx y hy

theorem mem_place : q ∈ place p ps ↔ q = p ∨ q ∈ ps := by
  obtain ⟨l, r, rfl, hplace, -, -⟩ := place_split p ps
  rw [hplace, List.mem_append, List.mem_append, List.mem_cons]
  tauto

theorem covered_append : covered (ps ++ qs) = covered ps + covered qs := by
  rw [covered, covered, covered, List.map_append, List.sum_append]

theorem covered_place : covered (place p ps) = covered ps + p.len := by
  obtain ⟨l, r, rfl, hplace, -, -⟩ := place_split p ps
  rw [hplace, covered_append, covered_append, covered_cons]
  omega

theorem length_place : (place p ps).length = ps.length + 1 := by
  obtain ⟨l, r, rfl, hplace, -, -⟩ := place_split p ps
  rw [hplace, List.length_append, List.length_append, List.length_cons]
  omega

theorem reach_le_place (p : Piece) (ps : List Piece) (k : ℕ) : reach ps k ≤ reach (place p ps) k := by
  obtain ⟨l, r, rfl, hplace, -, -⟩ := place_split p ps
  rw [hplace, reach_append, reach_append, reach_cons]
  exact reach_mono r (le_advance (reach l k) p)

/-- A piece placed beyond the reach does not move it. -/
theorem reach_place_beyond (h : reach ps k < p.start) : reach (place p ps) k = reach ps k := by
  obtain ⟨l, r, rfl, hplace, -, -⟩ := place_split p ps
  rw [reach_append] at h
  have hle := le_reach r (reach l k)
  rw [hplace, reach_append, reach_cons, advance_of_lt (by omega), reach_append]

/-- The walk from `k` gets as far as the reach of the pieces that lie beyond. -/
theorem walk_eq_reach {l r : List Piece} (hl : ∀ q ∈ l, q.start < k) (ha : Apart r)
    (hr : ∀ q ∈ r, k ≤ q.start) (hn : r.length ≤ n) : walk (l ++ r) n k = reach r k := by
  induction r generalizing l k n with
  | nil =>
    have hnone : (l ++ []).find? (fun p : Piece => p.start = k) = none := by
      refine List.find?_eq_none.mpr ?_
      intro q hq
      rw [List.append_nil] at hq
      have := hl q hq
      simp only [decide_eq_true_eq]
      omega
    cases n with
    | zero => rfl
    | succ n => simp only [walk, hnone, reach_nil]
  | cons p r ih =>
    obtain ⟨hp, ha⟩ := apart_cons.mp ha
    have hplt := p.lt
    cases n with
    | zero => simp at hn
    | succ n =>
      have hlnone : l.find? (fun p => p.start = k) = none := by
        refine List.find?_eq_none.mpr ?_
        intro q hq
        have := hl q hq
        simp only [decide_eq_true_eq]
        omega
      by_cases hstart : p.start = k
      · rw [walk, List.find?_append, hlnone, Option.none_or,
          List.find?_cons_of_pos (by simpa using hstart), reach_cons,
          advance_of_le (by omega) (by omega), List.append_cons]
        refine ih ?_ ha hp (by simpa using hn)
        intro q hq
        rcases List.mem_append.mp hq with hq | hq
        · have := hl q hq
          omega
        · rw [List.mem_singleton.mp hq]
          exact hplt
      · -- there is a gap right at `k`
        have hgap : ∀ q ∈ p :: r, k < q.start := by
          intro q hq
          rcases List.mem_cons.mp hq with rfl | hq
          · have := hr q (List.mem_cons_self ..)
            omega
          · have := hp q hq
            have := hr p (List.mem_cons_self ..)
            omega
        have hnone : (p :: r).find? (fun p => p.start = k) = none := by
          refine List.find?_eq_none.mpr ?_
          intro q hq
          have := hgap q hq
          simp only [decide_eq_true_eq]
          omega
        rw [walk, List.find?_append, hlnone, Option.none_or, hnone, reach_eq_self hgap]

/-- A piece placed at the end of the reach moves it over all that is there already. -/
theorem reach_place_end (ha : Apart ps) (hsep : ∀ q ∈ ps, Separate p q)
    (h : p.start = reach ps k) (hn : ps.length ≤ n) :
    walk (place p ps) n p.stop = reach (place p ps) k := by
  have hne : ∀ q ∈ ps, p ≠ q := by
    rintro q hq rfl
    exact ha.start_ne_reach hq h
  obtain ⟨l, r, rfl, hplace, hl, hr⟩ := ha.place_split hne hsep
  obtain ⟨hal, har, -⟩ := List.pairwise_append.mp ha
  have hplt := p.lt
  -- what lies beyond `p` was out of reach, so the reach ended with `l`
  have hreach : reach l k = p.start := by
    have hrself : reach r (reach l k) = reach l k := by
      refine reach_eq_self ?_
      intro q hq
      have := hr q hq
      have := le_reach r (reach l k)
      rw [reach_append] at h
      omega
    rw [h, reach_append, hrself]
  rw [hplace, reach_append, hreach, reach_cons, advance_of_le le_rfl hplt.le, List.append_cons]
  refine walk_eq_reach ?_ har hr ?_
  · intro q hq
    rcases List.mem_append.mp hq with hq | hq
    · have := hl q hq
      have := q.lt
      omega
    · rw [List.mem_singleton.mp hq]
      exact hplt
  · rw [List.length_append] at hn
    omega

/-- The pieces follow each other without a gap, from position `k` to position `m`. -/
def Follow : ℕ → List Piece → ℕ → Prop
  | k, [], m => k = m
  | k, p :: ps, m => p.start = k ∧ Follow p.stop ps m

theorem Follow.le (h : Follow k ps m) : k ≤ m := by
  induction ps generalizing k with
  | nil => exact h.le
  | cons p ps ih =>
    obtain ⟨rfl, hrest⟩ := h
    exact p.lt.le.trans (ih hrest)

theorem Follow.append (h : Follow k ps n) (h' : Follow n qs m) : Follow k (ps ++ qs) m := by
  induction ps generalizing k with
  | nil =>
    rw [Follow] at h
    rwa [h]
  | cons p ps ih => exact ⟨h.1, ih h.2⟩

/-- The second part follows from where the first one stops. -/
theorem Follow.split (h : Follow k (ps ++ qs) m) :
    ∃ n, Follow n qs m ∧ (n = k ∨ ∃ p ∈ ps, p.stop = n) := by
  induction ps generalizing k with
  | nil => exact ⟨k, h, .inl rfl⟩
  | cons p ps ih =>
    obtain ⟨n, hn, hcase⟩ := ih h.2
    refine ⟨n, hn, .inr ?_⟩
    rcases hcase with rfl | ⟨q, hq, rfl⟩
    · exact ⟨p, List.mem_cons_self .., rfl⟩
    · exact ⟨q, List.mem_cons_of_mem p hq, rfl⟩

theorem Follow.start_ge (h : Follow k ps m) : ∀ p ∈ ps, k ≤ p.start := by
  induction ps generalizing k with
  | nil => simp
  | cons p ps ih =>
    obtain ⟨rfl, hrest⟩ := h
    intro q hq
    rcases List.mem_cons.mp hq with rfl | hq
    · exact le_rfl
    · exact p.lt.le.trans (ih hrest q hq)

/-- What they cover is one slice of the stream. -/
theorem Follow.apart (h : Follow k ps m) : Apart ps := by
  induction ps generalizing k with
  | nil => exact List.Pairwise.nil
  | cons p ps ih => exact apart_cons.mpr ⟨h.2.start_ge, ih h.2⟩

theorem Follow.stop_le (h : Follow k ps m) : ∀ p ∈ ps, p.stop ≤ m := by
  induction ps generalizing k with
  | nil => simp
  | cons p ps ih =>
    obtain ⟨-, hrest⟩ := h
    intro q hq
    rcases List.mem_cons.mp hq with rfl | hq
    · exact hrest.le
    · exact ih hrest q hq

theorem Follow.start_inj (h : Follow k ps m) (hp : p ∈ ps) (hq : q ∈ ps) (hs : p.start = q.start) :
    p = q := by
  induction ps generalizing k with
  | nil => cases hp
  | cons r ps ih =>
    obtain ⟨-, hrest⟩ := h
    have hlt := r.lt
    rcases List.mem_cons.mp hp with rfl | hprest
    · rcases List.mem_cons.mp hq with rfl | hqrest
      · rfl
      · have := hrest.start_ge q hqrest
        omega
    · rcases List.mem_cons.mp hq with rfl | hqrest
      · have := hrest.start_ge p hprest
        omega
      · exact ih hrest hprest hqrest

theorem Follow.flatMap_slice (h : Follow k ps m) :
    (ps.flatMap fun p => slice S p.start p.len) = slice S k (m - k) := by
  induction ps generalizing k with
  | nil =>
    rw [Follow] at h
    rw [h, Nat.sub_self]
    rfl
  | cons p ps ih =>
    obtain ⟨rfl, hrest⟩ := h
    have hle := hrest.le
    have hlen := p.start_add_len
    have hsum : m - p.start = p.len + (m - p.stop) := by omega
    rw [List.flatMap_cons, ih hrest, hsum, ← slice_append, hlen]

end Pieces
