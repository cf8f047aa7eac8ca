import FdPicotcp.Lib.Transition
import Mathlib.Logic.Function.Basic

/-! `close()` next to threads that open descriptors.

    `fd_elem_delete` gives both ends of the pipe back to the kernel, frees the entry and clears the
    slot, in this order; the slot is keyed by the first number it has given back. `Inv` links the
    numbers that are out to the slots, the entries and the closing threads, whatever the order of the
    steps. -/

namespace FdPicotcp.Closing
open Transition

variable {σ : Type} [DecidableEq σ]

/-- What a descriptor number stands for; the pipes are counted. -/
inductive File where
  | readEnd (pipe : ℕ)
  | writeEnd (pipe : ℕ)
  | other
  deriving DecidableEq

/-- `fd_elem`, as far as it is written once; `pipe` is the one it was made with. -/
structure FdElem (σ : Type) where
  fd : ℕ × ℕ
  socket : σ
  pipe : ℕ
  deriving DecidableEq

/-- The next statement of `fd_elem_delete`. -/
inductive Stage where | fd0 | fd1 | free | clear
  deriving DecidableEq

/-- `handle_wakeup` with `PICO_SOCK_EV_RD`: the entry it has looked up, and what it does to it next.
    At `fault` it has used an entry that is freed. -/
inductive Wakeup (σ : Type) where
  | rest
  | write (s : σ) (l : FdElem σ)
  | count (l : FdElem σ)
  | post (l : FdElem σ)
  | fault
  deriving DecidableEq

/-- A byte that `handle_wakeup` has written for `socket`, and what it went to. -/
structure Byte (σ : Type) where
  socket : σ
  elem : FdElem σ
  file : Option File
  deriving DecidableEq

/-- The descriptors of the process, the table, the pipes of the entries that are freed, the threads
    in `close()` by their descriptor, and those in `socket()` or `accept()` that have their pipe and
    have not stored it yet. -/
structure World (σ : Type) where
  kernel : ℕ → Option File
  fdTableSize : ℕ
  slots : ℕ → Option (FdElem σ)
  freed : List ℕ
  pipes : ℕ
  closers : ℕ → Option Stage
  openers : List (FdElem σ)
  wakeup : Wakeup σ
  written : List (Byte σ)

inductive Act (σ : Type) where
  /-- some other file is opened, or closed -/
  | openFile (n : ℕ)
  | closeFile (n : ℕ)
  /-- `pipe()` in `socket()` or `accept()`, for the socket `s` -/
  | pipe (s : σ) (n₀ n₁ : ℕ)
  /-- the end of `fd_elem_create`; it can fail for want of memory or room -/
  | create (l : FdElem σ) (ok : Bool)
  | close (n : ℕ)
  | closer (n : ℕ)
  | wakeup (s : σ)
  | stack
  deriving DecidableEq

/-- The kernel hands out the lowest number that is free. -/
def Lowest (kernel : ℕ → Option File) (n : ℕ) : Prop :=
  kernel n = none ∧ ∀ m, m < n → kernel m ≠ none

instance (kernel : ℕ → Option File) (n : ℕ) : Decidable (Lowest kernel n) :=
  inferInstanceAs (Decidable (_ ∧ _))

/-- `get_fd_elem_from_socket` over the slots of a list; `none` if it reads a freed entry. -/
def search (w : World σ) (s : σ) : List ℕ → Option (Option (FdElem σ))
  | [] => some none
  | i :: is =>
    match w.slots i with
    | none => search w s is
    | some l => if l.pipe ∈ w.freed then none else if l.socket = s then some (some l)
      else search w s is

/-- A descriptor number is given back. -/
def World.release (w : World σ) (n : ℕ) (next : Stage) (key : ℕ) : World σ :=
  { w with
    kernel := Function.update w.kernel n none
    closers := Function.update w.closers key (some next) }

/-- The size of the table for an entry, doubled if need be. -/
def grown (w : World σ) (l : FdElem σ) : ℕ :=
  if w.fdTableSize ≤ l.fd.1 ∨ w.fdTableSize ≤ l.fd.2 then 2 * w.fdTableSize else w.fdTableSize

def step (w : World σ) : Act σ → Option (World σ)
  | .openFile n =>
    if Lowest w.kernel n then some { w with kernel := Function.update w.kernel n (some .other) }
    else none
  | .closeFile n =>
    if w.kernel n = some .other ∧ w.slots n = none then
      some { w with kernel := Function.update w.kernel n none }
    else none
  | .pipe s n₀ n₁ =>
    let kernel := Function.update w.kernel n₀ (some (.readEnd w.pipes))
    if Lowest w.kernel n₀ ∧ Lowest kernel n₁ then
      some { w with
        kernel := Function.update kernel n₁ (some (.writeEnd w.pipes))
        openers := ⟨(n₀, n₁), s, w.pipes⟩ :: w.openers
        pipes := w.pipes + 1 }
    else none
  | .create l ok =>
    if l ∈ w.openers then
      let w := { w with openers := w.openers.erase l }
      if ¬ ok then some w
      else if grown w l ≤ l.fd.1 then none
      else if w.slots l.fd.1 ≠ none then some { w with fdTableSize := grown w l }
      else some { w with
        fdTableSize := grown w l
        slots := Function.update w.slots l.fd.1 (some l) }
    else none
  | .close n =>
    if w.slots n ≠ none ∧ w.closers n = none then
      some { w with closers := Function.update w.closers n (some .fd0) }
    else none
  | .closer n =>
    match w.slots n, w.closers n with
    | some l, some .fd0 => some (w.release l.fd.1 .fd1 n)
    | some l, some .fd1 => some (w.release l.fd.2 .free n)
    | some l, some .free => some { w with
        freed := l.pipe :: w.freed
        closers := Function.update w.closers n (some .clear) }
    | some _, some .clear => some { w with
        slots := Function.update w.slots n none
        closers := Function.update w.closers n none }
    | _, _ => none
  | .wakeup s =>
    match w.wakeup, search w s (List.range w.fdTableSize) with
    | .rest, some (some l) => some { w with wakeup := .write s l }
    | .rest, some none => some w
    | .rest, none => some { w with wakeup := .fault }
    | _, _ => none
  | .stack =>
    match w.wakeup with
    | .write s l =>
      if l.pipe ∈ w.freed then some { w with wakeup := .fault }
      else some { w with wakeup := .count l, written := ⟨s, l, w.kernel l.fd.2⟩ :: w.written }
    | .count l => some { w with wakeup := if l.pipe ∈ w.freed then .fault else .post l }
    | .post l => some { w with wakeup := if l.pipe ∈ w.freed then .fault else .rest }
    | .rest | .fault => none

def begin : World σ :=
  ⟨fun _ => none, 8, fun _ => none, [], 0, fun _ => none, [], .rest, []⟩

/-- The numbers that the kernel hands out. -/
def handsOut : Act σ → List ℕ
  | .openFile n => [n]
  | .pipe _ n₀ n₁ => [n₀, n₁]
  | _ => []

/-- `fd[0]` has been given back and the slot is not yet cleared. -/
def Past0 (c : Option Stage) : Prop := c = some .fd1 ∨ c = some .free ∨ c = some .clear

/-- `fd[1]` has been given back as well. -/
def Past1 (c : Option Stage) : Prop := c = some .free ∨ c = some .clear

instance (c : Option Stage) : Decidable (Past0 c) := inferInstanceAs (Decidable (_ ∨ _))

instance (c : Option Stage) : Decidable (Past1 c) := inferInstanceAs (Decidable (_ ∨ _))

/-- Which numbers are out, and who has them. -/
structure Inv (w : World σ) : Prop where
  key : ∀ n l, w.slots n = some l → l.fd.1 = n
  read : ∀ n l, w.slots n = some l → w.kernel n = some (.readEnd l.pipe) ∨ Past0 (w.closers n)
  write : ∀ n l, w.slots n = some l →
    w.kernel l.fd.2 = some (.writeEnd l.pipe) ∨ Past1 (w.closers n)
  opener : ∀ l ∈ w.openers,
    w.kernel l.fd.1 = some (.readEnd l.pipe) ∧ w.kernel l.fd.2 = some (.writeEnd l.pipe)
  closing : ∀ n, w.closers n ≠ none → w.slots n ≠ none
  freed : ∀ n l, w.slots n = some l → l.pipe ∈ w.freed → w.closers n = some .clear
  slotPipe : ∀ n m l k, w.slots n = some l → w.slots m = some k → l.pipe = k.pipe → n = m
  openPipe : ∀ l ∈ w.openers, l.pipe ∉ w.freed ∧ ∀ n k, w.slots n = some k → k.pipe ≠ l.pipe
  openers : w.openers.Pairwise (·.pipe ≠ ·.pipe)
  slotCount : ∀ n l, w.slots n = some l → l.pipe < w.pipes
  openCount : ∀ l ∈ w.openers, l.pipe < w.pipes
  freedCount : ∀ p ∈ w.freed, p < w.pipes

omit [DecidableEq σ] in
/-- A number keeps its file when another one changes. -/
theorem kept {kernel : ℕ → Option File} {n m : ℕ} {f : File} (h : kernel m = some f)
    (hn : kernel n ≠ some f) (x : Option File) : Function.update kernel n x m = some f := by
  rw [Function.update_of_ne]
  · exact h
  · rintro rfl
    exact hn h

namespace Inv
variable {w : World σ}

omit [DecidableEq σ]

/-- A number that is free or some other file may become anything. -/
theorem other (h : Inv w) {n : ℕ} (hread : ∀ p, w.kernel n ≠ some (.readEnd p))
    (hwrite : ∀ p, w.kernel n ≠ some (.writeEnd p)) (x : Option File) :
    Inv { w with kernel := Function.update w.kernel n x } :=
  { h with
    read := fun m l hl => (h.read m l hl).imp_left fun hk => kept hk (hread _) x
    write := fun m l hl => (h.write m l hl).imp_left fun hk => kept hk (hwrite _) x
    opener := fun l hl =>
      ⟨kept (h.opener l hl).1 (hread _) x, kept (h.opener l hl).2 (hwrite _) x⟩ }

theorem free (h : Inv w) {n : ℕ} (hn : w.kernel n = none) (x : Option File) :
    Inv { w with kernel := Function.update w.kernel n x } :=
  h.other (by simp [hn]) (by simp [hn]) x

/-- `pipe()` -/
theorem pipe (h : Inv w) (s : σ) {n₀ n₁ : ℕ} (h₀ : w.kernel n₀ = none)
    (h₁ : Function.update w.kernel n₀ (some (.readEnd w.pipes)) n₁ = none) :
    Inv { w with
      kernel := Function.update (Function.update w.kernel n₀ (some (.readEnd w.pipes))) n₁
        (some (.writeEnd w.pipes))
      openers := ⟨(n₀, n₁), s, w.pipes⟩ :: w.openers
      pipes := w.pipes + 1 } := by
  have hk := (h.free h₀ (some (.readEnd w.pipes))).free (n := n₁) h₁ (some (.writeEnd w.pipes))
  refine { hk with
    opener := ?_
    openPipe := ?_
    openers := List.pairwise_cons.mpr ⟨?_, h.openers⟩
    slotCount := fun n l hl => Nat.lt_succ_of_lt (h.slotCount n l hl)
    openCount := ?_
    freedCount := fun p hp => Nat.lt_succ_of_lt (h.freedCount p hp) }
  · intro l hl
    rcases List.mem_cons.mp hl with rfl | hl
    · refine ⟨kept (Function.update_self ..) ?_ _, Function.update_self ..⟩
      rw [h₁]
      nofun
    · exact hk.opener l hl
  · intro l hl
    rcases List.mem_cons.mp hl with rfl | hl
    · exact ⟨fun hp => Nat.lt_irrefl _ (h.freedCount _ hp), fun n k hn =>
        Nat.ne_of_lt (h.slotCount n k hn)⟩
    · exact h.openPipe l hl
  · exact fun l hl => Nat.ne_of_gt (h.openCount l hl)
  · intro l hl
    rcases List.mem_cons.mp hl with rfl | hl
    · exact Nat.lt_succ_self _
    · exact Nat.lt_succ_of_lt (h.openCount l hl)

/-- A thread gives up on its entry. -/
theorem erase [DecidableEq σ] (h : Inv w) (l : FdElem σ) (size : ℕ) :
    Inv { w with openers := w.openers.erase l, fdTableSize := size } :=
  { h with
    opener := fun k hk => h.opener k (List.mem_of_mem_erase hk)
    openPipe := fun k hk => h.openPipe k (List.mem_of_mem_erase hk)
    openers := h.openers.sublist List.erase_sublist
    openCount := fun k hk => h.openCount k (List.mem_of_mem_erase hk) }

/-- The pipe of an entry is no longer that of a thread once it is stored. -/
theorem erase_pipe [DecidableEq σ] (h : Inv w) {l : FdElem σ} (hl : l ∈ w.openers) :
    ∀ k ∈ w.openers.erase l, k.pipe ≠ l.pipe := by
  have hperm := List.perm_cons_erase hl
  have hpw := (hperm.pairwise_iff fun hab => Ne.symm hab).mp h.openers
  exact fun k hk => ((List.pairwise_cons.mp hpw).1 k hk).symm

theorem insert [DecidableEq σ] (h : Inv w) {l : FdElem σ} (hl : l ∈ w.openers)
    (hs : w.slots l.fd.1 = none) (size : ℕ) :
    Inv { w with
      openers := w.openers.erase l
      fdTableSize := size
      slots := Function.update w.slots l.fd.1 (some l) } := by
  obtain ⟨hread, hwrite⟩ := h.opener l hl
  obtain ⟨hfreed, hpipe⟩ := h.openPipe l hl
  have hslot : ∀ {n k}, Function.update w.slots l.fd.1 (some l) n = some k →
      n = l.fd.1 ∧ k = l ∨ n ≠ l.fd.1 ∧ w.slots n = some k := by
    intro n k hk
    rcases eq_or_ne n l.fd.1 with rfl | hne
    · rw [Function.update_self, Option.some.injEq] at hk
      exact .inl ⟨rfl, hk.symm⟩
    · rw [Function.update_of_ne hne] at hk
      exact .inr ⟨hne, hk⟩
  have hclosers : w.closers l.fd.1 = none := by
    by_contra hc
    exact h.closing _ hc hs
  refine { h.erase l size with
    key := ?_, read := ?_, write := ?_, closing := ?_, freed := ?_, slotPipe := ?_, openPipe := ?_
    slotCount := ?_ }
  · intro n k hk
    rcases hslot hk with ⟨rfl, rfl⟩ | ⟨-, hk⟩
    · rfl
    · exact h.key n k hk
  · intro n k hk
    rcases hslot hk with ⟨rfl, rfl⟩ | ⟨-, hk⟩
    · exact .inl hread
    · exact h.read n k hk
  · intro n k hk
    rcases hslot hk with ⟨rfl, rfl⟩ | ⟨-, hk⟩
    · exact .inl hwrite
    · exact h.write n k hk
  · intro n hn
    have hne : n ≠ l.fd.1 := by
      rintro rfl
      exact hn hclosers
    simp only [Function.update_of_ne hne]
    exact h.closing n hn
  · intro n k hk hp
    rcases hslot hk with ⟨rfl, rfl⟩ | ⟨-, hk⟩
    · exact absurd hp hfreed
    · exact h.freed n k hk hp
  · intro n m k k' hk hk' hp
    rcases hslot hk with ⟨rfl, rfl⟩ | ⟨-, hold⟩ <;> rcases hslot hk' with ⟨rfl, rfl⟩ | ⟨-, hold'⟩
    · rfl
    · exact absurd hp.symm (hpipe m k' hold')
    · exact absurd hp (hpipe n k hold)
    · exact h.slotPipe n m k k' hold hold' hp
  · intro k hk
    refine ⟨(h.openPipe k (List.mem_of_mem_erase hk)).1, ?_⟩
    intro n k' hk'
    rcases hslot hk' with ⟨rfl, rfl⟩ | ⟨-, hk'⟩
    · exact (h.erase_pipe hl k hk).symm
    · exact (h.openPipe k (List.mem_of_mem_erase hk)).2 n k' hk'
  · intro n k hk
    rcases hslot hk with ⟨rfl, rfl⟩ | ⟨-, hk⟩
    · exact h.openCount k hl
    · exact h.slotCount n k hk

/-- What the closing threads have given back, one statement further. -/
theorem advance (h : Inv w) {n : ℕ} {l : FdElem σ} {c : Stage} (hl : w.slots n = some l)
    (hread : w.kernel n = some (.readEnd l.pipe) ∨ Past0 (some c))
    (hwrite : w.kernel l.fd.2 = some (.writeEnd l.pipe) ∨ Past1 (some c))
    (hfreed : l.pipe ∈ w.freed → c = .clear) :
    Inv { w with closers := Function.update w.closers n (some c) } := by
  have hsame : ∀ k, w.slots n = some k → k = l := fun k hk =>
    (Option.some.inj (hl.symm.trans hk)).symm
  refine { h with read := ?_, write := ?_, closing := ?_, freed := ?_ }
  · intro m k hk
    rcases eq_or_ne m n with rfl | hne
    · simp only [Function.update_self, hsame k hk]
      exact hread
    · simp only [Function.update_of_ne hne]
      exact h.read m k hk
  · intro m k hk
    rcases eq_or_ne m n with rfl | hne
    · simp only [Function.update_self, hsame k hk]
      exact hwrite
    · simp only [Function.update_of_ne hne]
      exact h.write m k hk
  · intro m hm
    rcases eq_or_ne m n with rfl | hne
    · simp only [hl]
      nofun
    · simp only [Function.update_of_ne hne] at hm
      exact h.closing m hm
  · intro m k hk hp
    rcases eq_or_ne m n with rfl | hne
    · rw [hsame k hk] at hp
      simp only [Function.update_self, hfreed hp]
    · simp only [Function.update_of_ne hne]
      exact h.freed m k hk hp

/-- A number is given back that nobody needs any more. -/
theorem drop (h : Inv w) {m : ℕ}
    (hread : ∀ l, w.slots m = some l → w.kernel m = some (.readEnd l.pipe) → Past0 (w.closers m))
    (hwrite : ∀ n l, w.slots n = some l → l.fd.2 = m → w.kernel m = some (.writeEnd l.pipe) →
      Past1 (w.closers n))
    (hopen : ∀ l ∈ w.openers, l.fd.1 ≠ m ∧ l.fd.2 ≠ m) :
    Inv { w with kernel := Function.update w.kernel m none } := by
  refine { h with read := ?_, write := ?_, opener := ?_ }
  · intro n l hl
    rcases eq_or_ne n m with rfl | hne
    · exact .inr ((h.read n l hl).elim (hread l hl) id)
    · simp only [Function.update_of_ne hne]
      exact h.read n l hl
  · intro n l hl
    rcases eq_or_ne l.fd.2 m with hm | hne
    · rcases h.write n l hl with hk | hpast
      · exact .inr (hwrite n l hl hm (hm ▸ hk))
      · exact .inr hpast
    · simp only [Function.update_of_ne hne]
      exact h.write n l hl
  · intro l hl
    obtain ⟨h₁, h₂⟩ := hopen l hl
    simp only [Function.update_of_ne h₁, Function.update_of_ne h₂]
    exact h.opener l hl

/-- `close(fd_table[fd]->fd[0])` -/
theorem fd0 (h : Inv w) {n : ℕ} {l : FdElem σ} (hl : w.slots n = some l)
    (hc : w.closers n = some .fd0) : Inv (w.release l.fd.1 .fd1 n) := by
  have hkey : l.fd.1 = n := h.key n l hl
  have hfile : w.kernel n = some (.readEnd l.pipe) :=
    (h.read n l hl).resolve_right (by rw [hc]; decide)
  have hfreed : l.pipe ∉ w.freed := by
    intro hp
    have hclear := h.freed n l hl hp
    rw [hc] at hclear
    cases hclear
  have hadv := h.advance (c := .fd1) hl (.inr (.inl rfl))
    (.inl ((h.write n l hl).resolve_right (by rw [hc]; decide))) fun hp => absurd hp hfreed
  rw [hkey]
  refine hadv.drop ?_ ?_ ?_
  · intro k _ _
    exact .inl (Function.update_self ..)
  · intro m k _ _ hk
    rw [hfile] at hk
    cases hk
  · intro k hk
    obtain ⟨hr, hw⟩ := h.opener k hk
    refine ⟨?_, ?_⟩
    · rintro rfl
      rw [hfile, Option.some.injEq, File.readEnd.injEq] at hr
      exact (h.openPipe k hk).2 _ l hl hr
    · rintro rfl
      rw [hfile] at hw
      cases hw

/-- `close(fd_table[fd]->fd[1])` -/
theorem fd1 (h : Inv w) {n : ℕ} {l : FdElem σ} (hl : w.slots n = some l)
    (hc : w.closers n = some .fd1) : Inv (w.release l.fd.2 .free n) := by
  have hfile : w.kernel l.fd.2 = some (.writeEnd l.pipe) :=
    (h.write n l hl).resolve_right (by rw [hc]; decide)
  have hfreed : l.pipe ∉ w.freed := by
    intro hp
    have hclear := h.freed n l hl hp
    rw [hc] at hclear
    cases hclear
  have hadv := h.advance (c := .free) hl (.inr (.inr (.inl rfl))) (.inr (.inl rfl))
    fun hp => absurd hp hfreed
  refine hadv.drop ?_ ?_ ?_
  · intro k _ hk
    rw [hfile] at hk
    cases hk
  · intro m k hk _ hkfile
    rw [hfile, Option.some.injEq, File.writeEnd.injEq] at hkfile
    have hnm : m = n := h.slotPipe m n k l hk hl hkfile.symm
    subst hnm
    exact .inl (Function.update_self ..)
  · intro k hk
    obtain ⟨hr, hw⟩ := h.opener k hk
    refine ⟨?_, ?_⟩
    · intro hm
      rw [hm, hfile] at hr
      cases hr
    · intro hm
      rw [hm, hfile, Option.some.injEq, File.writeEnd.injEq] at hw
      exact (h.openPipe k hk).2 _ l hl hw

/-- `free(fd_table[fd])` -/
theorem freeElem (h : Inv w) {n : ℕ} {l : FdElem σ} (hl : w.slots n = some l)
    (hc : w.closers n = some .free) :
    Inv { w with
      freed := l.pipe :: w.freed
      closers := Function.update w.closers n (some .clear) } := by
  have hadv := h.advance (c := .clear) hl (.inr (.inr (.inr rfl))) (.inr (.inr rfl)) fun _ => rfl
  refine { hadv with freed := ?_, openPipe := ?_, freedCount := ?_ }
  · intro m k hk hp
    rcases List.mem_cons.mp hp with hp | hp
    · have hnm : m = n := h.slotPipe m n k l hk hl hp
      subst hnm
      exact Function.update_self ..
    · exact hadv.freed m k hk hp
  · intro k hk
    obtain ⟨hfreed, hpipe⟩ := h.openPipe k hk
    refine ⟨?_, hpipe⟩
    rw [List.mem_cons, not_or]
    exact ⟨(hpipe n l hl).symm, hfreed⟩
  · intro p hp
    rcases List.mem_cons.mp hp with rfl | hp
    · exact h.slotCount n l hl
    · exact h.freedCount p hp

/-- `fd_table[fd] = NULL` -/
theorem clear (h : Inv w) (n : ℕ) :
    Inv { w with
      slots := Function.update w.slots n none
      closers := Function.update w.closers n none } := by
  have hslot : ∀ {m k}, Function.update w.slots n none m = some k → m ≠ n ∧ w.slots m = some k := by
    intro m k hk
    rcases eq_or_ne m n with rfl | hne
    · rw [Function.update_self] at hk
      cases hk
    · rw [Function.update_of_ne hne] at hk
      exact ⟨hne, hk⟩
  refine { h with
    key := fun m k hk => h.key m k (hslot hk).2
    read := ?_, write := ?_, closing := ?_, freed := ?_
    slotPipe := fun m m' k k' hk hk' => h.slotPipe m m' k k' (hslot hk).2 (hslot hk').2
    openPipe := fun k hk => ⟨(h.openPipe k hk).1, fun m k' hk' => (h.openPipe k hk).2 m k' (hslot hk').2⟩
    slotCount := fun m k hk => h.slotCount m k (hslot hk).2 }
  · intro m k hk
    obtain ⟨hne, hk⟩ := hslot hk
    simp only [Function.update_of_ne hne]
    exact h.read m k hk
  · intro m k hk
    obtain ⟨hne, hk⟩ := hslot hk
    simp only [Function.update_of_ne hne]
    exact h.write m k hk
  · intro m hm
    rcases eq_or_ne m n with rfl | hne
    · exact absurd (Function.update_self ..) hm
    · simp only [Function.update_of_ne hne] at hm ⊢
      exact h.closing m hm
  · intro m k hk hp
    obtain ⟨hne, hk⟩ := hslot hk
    simp only [Function.update_of_ne hne]
    exact h.freed m k hk hp

end Inv

/-- STEP: every step of every thread keeps the invariant. -/
theorem inv_step {w w' : World σ} {a : Act σ} (h : Inv w) (hs : step w a = some w') : Inv w' := by
  cases a with
  | openFile n =>
    simp only [step, Option.ite_none_right_eq_some, Option.some.injEq] at hs
    obtain ⟨hfree, rfl⟩ := hs
    exact h.free hfree.1 _
  | closeFile n =>
    simp only [step, Option.ite_none_right_eq_some, Option.some.injEq] at hs
    obtain ⟨⟨hother, -⟩, rfl⟩ := hs
    exact h.other (by simp [hother]) (by simp [hother]) _
  | pipe s n₀ n₁ =>
    simp only [step, Option.ite_none_right_eq_some, Option.some.injEq] at hs
    obtain ⟨⟨h₀, h₁⟩, rfl⟩ := hs
    exact h.pipe s h₀.1 h₁.1
  | create l ok =>
    simp only [step, Option.ite_none_right_eq_some] at hs
    obtain ⟨hl, hs⟩ := hs
    split at hs
    · rw [Option.some.injEq] at hs
      subst hs
      exact h.erase l _
    · split at hs
      · cases hs
      · split at hs <;> rw [Option.some.injEq] at hs <;> subst hs
        · exact h.erase l _
        · next hslot => exact h.insert hl (not_not.mp hslot) _
  | close n =>
    simp only [step, Option.ite_none_right_eq_some, Option.some.injEq] at hs
    obtain ⟨⟨hslot, hc⟩, rfl⟩ := hs
    obtain ⟨l, hl⟩ := Option.ne_none_iff_exists'.mp hslot
    refine h.advance hl ?_ ?_ ?_
    · exact .inl ((h.read n l hl).resolve_right (by rw [hc]; decide))
    · exact .inl ((h.write n l hl).resolve_right (by rw [hc]; decide))
    · intro hp
      have hclear := h.freed n l hl hp
      rw [hc] at hclear
      cases hclear
  | closer n =>
    simp only [step] at hs
    split at hs <;> simp only [Option.some.injEq, reduceCtorEq] at hs <;> subst hs
    · next l hl hc => exact h.fd0 hl hc
    · next l hl hc => exact h.fd1 hl hc
    · next l hl hc => exact h.freeElem hl hc
    · exact h.clear n
  | wakeup s =>
    simp only [step] at hs
    split at hs <;> simp only [Option.some.injEq, reduceCtorEq] at hs <;> subst hs
    · exact { h with }
    · exact h
    · exact { h with }
  | stack =>
    simp only [step] at hs
    split at hs
    · split at hs <;> rw [Option.some.injEq] at hs <;> subst hs
      · exact { h with }
      · exact { h with }
    · rw [Option.some.injEq] at hs
      subst hs
      exact { h with }
    · rw [Option.some.injEq] at hs
      subst hs
      exact { h with }
    · cases hs
    · cases hs

omit [DecidableEq σ] in
theorem inv_begin : Inv (begin : World σ) :=
  ⟨nofun, nofun, nofun, nofun, fun _ hn => absurd rfl hn, nofun, nofun, nofun, .nil, nofun, nofun,
    nofun⟩

/-- No number is handed out between the release of `fd[0]` and the clearing of its slot. -/
def Clear (w : World σ) (a : Act σ) : Prop := ∀ n ∈ handsOut a, ¬ Past0 (w.closers n)

instance (w : World σ) (a : Act σ) : Decidable (Clear w a) := inferInstanceAs (Decidable (∀ _, _))

/-- Another file has no slot, and the slot of a descriptor that is not stored yet is free. -/
structure Undispatched (w : World σ) : Prop where
  file : ∀ n, w.kernel n = some .other → w.slots n = none
  opener : ∀ l ∈ w.openers, w.slots l.fd.1 = none

omit [DecidableEq σ] in
/-- A free number has an empty slot unless it is being closed. -/
theorem Inv.slot_of_free {w : World σ} (h : Inv w) {n : ℕ} (hn : w.kernel n = none) :
    w.slots n = none ↔ ¬ Past0 (w.closers n) := by
  constructor
  · intro hs hpast
    refine h.closing n ?_ hs
    rintro hc
    rw [hc] at hpast
    revert hpast
    decide
  · intro hpast
    rw [Option.eq_none_iff_forall_ne_some]
    intro l hl
    rcases h.read n l hl with hk | hp
    · rw [hn] at hk
      cases hk
    · exact hpast hp

/-- What is handed out was free. -/
theorem handsOut_free {w w' : World σ} {a : Act σ} (hs : step w a = some w') :
    ∀ n ∈ handsOut a, w.kernel n = none := by
  intro n hn
  cases a with
  | openFile m =>
    simp only [step, Option.ite_none_right_eq_some] at hs
    obtain rfl := List.mem_singleton.mp hn
    exact hs.1.1
  | pipe s n₀ n₁ =>
    simp only [step, Option.ite_none_right_eq_some] at hs
    obtain ⟨⟨⟨h₀, -⟩, h₁, -⟩, -⟩ := hs
    simp only [handsOut, List.mem_cons, List.not_mem_nil, or_false] at hn
    rcases hn with rfl | rfl
    · exact h₀
    · rcases eq_or_ne n n₀ with rfl | hne
      · rw [Function.update_self] at h₁
        cases h₁
      · rwa [Function.update_of_ne hne] at h₁
  | _ => cases hn

/-- The numbers that a step hands out have empty slots exactly if none is being closed. -/
theorem handsOut_empty_iff {w w' : World σ} {a : Act σ} (h : Inv w) (hs : step w a = some w') :
    (∀ n ∈ handsOut a, w.slots n = none) ↔ Clear w a := by
  have hfree := handsOut_free hs
  constructor
  · exact fun hempty n hn => (h.slot_of_free (hfree n hn)).mp (hempty n hn)
  · exact fun hclear n hn => (h.slot_of_free (hfree n hn)).mpr (hclear n hn)

namespace Undispatched
variable {w : World σ}

omit [DecidableEq σ] in
/-- A number with an empty slot may become any file. -/
theorem update (h : Undispatched w) {n : ℕ} (hn : w.slots n = none) (x : Option File) :
    Undispatched { w with kernel := Function.update w.kernel n x } := by
  refine ⟨?_, h.opener⟩
  intro m hm
  rcases eq_or_ne m n with rfl | hne
  · exact hn
  · simp only [Function.update_of_ne hne] at hm
    exact h.file m hm

omit [DecidableEq σ] in
/-- `pipe()` -/
theorem pipe (h : Undispatched w) (s : σ) {n₀ n₁ : ℕ} (h₀ : w.slots n₀ = none)
    (h₁ : w.slots n₁ = none) : Undispatched { w with
      kernel := Function.update (Function.update w.kernel n₀ (some (.readEnd w.pipes))) n₁
        (some (.writeEnd w.pipes))
      openers := ⟨(n₀, n₁), s, w.pipes⟩ :: w.openers
      pipes := w.pipes + 1 } := by
  have hfiles := (h.update h₀ (some (.readEnd w.pipes))).update h₁ (some (.writeEnd w.pipes))
  refine ⟨hfiles.file, ?_⟩
  intro l hl
  rcases List.mem_cons.mp hl with rfl | hl
  · exact h₀
  · exact h.opener l hl

/-- An entry goes into its slot, which is no other file's and no other thread's. -/
theorem insert (hi : Inv w) (h : Undispatched w) {l : FdElem σ} (hl : l ∈ w.openers) (size : ℕ) :
    Undispatched { w with
      openers := w.openers.erase l
      fdTableSize := size
      slots := Function.update w.slots l.fd.1 (some l) } := by
  have hfile := (hi.opener l hl).1
  refine ⟨?_, ?_⟩
  · intro n hn
    have hne : n ≠ l.fd.1 := by
      rintro rfl
      rw [hfile] at hn
      cases hn
    simp only [Function.update_of_ne hne]
    exact h.file n hn
  · intro k hk
    have hne : k.fd.1 ≠ l.fd.1 := by
      intro heq
      have hk' := (hi.opener k (List.mem_of_mem_erase hk)).1
      rw [heq, hfile, Option.some.injEq, File.readEnd.injEq] at hk'
      exact hi.erase_pipe hl k hk hk'.symm
    simp only [Function.update_of_ne hne]
    exact h.opener k (List.mem_of_mem_erase hk)

/-- The end of `fd_elem_create`. -/
theorem create {w' : World σ} {l : FdElem σ} {ok : Bool} (hi : Inv w) (h : Undispatched w)
    (hs : step w (.create l ok) = some w') : Undispatched w' := by
  simp only [step, Option.ite_none_right_eq_some] at hs
  obtain ⟨hl, hs⟩ := hs
  have hsame : ∀ k ∈ w.openers.erase l, w.slots k.fd.1 = none := fun k hk =>
    h.opener k (List.mem_of_mem_erase hk)
  split at hs
  · rw [Option.some.injEq] at hs
    subst hs
    exact ⟨h.file, hsame⟩
  · split at hs
    · cases hs
    · split at hs <;> rw [Option.some.injEq] at hs <;> subst hs
      · exact ⟨h.file, hsame⟩
      · exact insert hi h hl _

omit [DecidableEq σ] in
/-- A number is given back. -/
theorem release (h : Undispatched w) (n : ℕ) (next : Stage) (key : ℕ) :
    Undispatched (w.release n next key) := by
  refine ⟨?_, h.opener⟩
  intro k hk
  rcases eq_or_ne k n with rfl | hne
  · simp only [World.release, Function.update_self] at hk
    cases hk
  · simp only [World.release, Function.update_of_ne hne] at hk
    exact h.file k hk

omit [DecidableEq σ] in
theorem clear (h : Undispatched w) (n : ℕ) (closers : ℕ → Option Stage) :
    Undispatched { w with slots := Function.update w.slots n none, closers := closers } := by
  have hcleared : ∀ {k}, w.slots k = none → Function.update w.slots n none k = none := by
    intro k hk
    rcases eq_or_ne k n with rfl | hne
    · exact Function.update_self ..
    · rw [Function.update_of_ne hne, hk]
  exact ⟨fun k hk => hcleared (h.file k hk), fun k hk => hcleared (h.opener k hk)⟩

/-- A statement of `fd_elem_delete`. -/
theorem closer {w' : World σ} {n : ℕ} (h : Undispatched w) (hs : step w (.closer n) = some w') :
    Undispatched w' := by
  simp only [step] at hs
  split at hs <;> simp only [Option.some.injEq, reduceCtorEq] at hs <;> subst hs
  · exact h.release ..
  · exact h.release ..
  · exact ⟨h.file, h.opener⟩
  · exact h.clear ..

end Undispatched

/-- STEP: handing out numbers with empty slots only. -/
theorem undispatched_step {w w' : World σ} {a : Act σ} (hi : Inv w) (h : Undispatched w)
    (hc : Clear w a) (hs : step w a = some w') : Undispatched w' := by
  have hempty := (handsOut_empty_iff hi hs).mpr hc
  cases a with
  | openFile n =>
    simp only [step, Option.ite_none_right_eq_some, Option.some.injEq] at hs
    obtain ⟨-, rfl⟩ := hs
    exact h.update (hempty n (List.mem_singleton_self n)) _
  | closeFile n =>
    simp only [step, Option.ite_none_right_eq_some, Option.some.injEq] at hs
    obtain ⟨⟨-, hslot⟩, rfl⟩ := hs
    exact h.update hslot none
  | pipe s n₀ n₁ =>
    simp only [step, Option.ite_none_right_eq_some, Option.some.injEq] at hs
    obtain ⟨-, rfl⟩ := hs
    exact h.pipe s (hempty n₀ (by simp [handsOut])) (hempty n₁ (by simp [handsOut]))
  | create l ok => exact h.create hi hs
  | close n =>
    simp only [step, Option.ite_none_right_eq_some, Option.some.injEq] at hs
    obtain ⟨-, rfl⟩ := hs
    exact ⟨h.file, h.opener⟩
  | closer n => exact h.closer hs
  | wakeup s =>
    simp only [step] at hs
    split at hs <;> simp only [Option.some.injEq, reduceCtorEq] at hs <;> subst hs <;>
      exact ⟨h.file, h.opener⟩
  | stack =>
    simp only [step] at hs
    split at hs
    · split at hs <;> rw [Option.some.injEq] at hs <;> subst hs <;> exact ⟨h.file, h.opener⟩
    · rw [Option.some.injEq] at hs
      subst hs
      exact ⟨h.file, h.opener⟩
    · rw [Option.some.injEq] at hs
      subst hs
      exact ⟨h.file, h.opener⟩
    · cases hs
    · cases hs

/-- A RECYCLED NUMBER HAS AN EMPTY SLOT exactly if it is not being closed; in a run that hands out no
    others, no call on another file goes to a socket and no slot of a new descriptor is occupied. -/
theorem recycled_numbers {as : List (Act σ)} {w : World σ} (hm : Meets step Clear begin as)
    (hr : run step begin as = some w) : Undispatched w ∧ ∀ a w', step w a = some w' →
      ((∀ n ∈ handsOut a, w.slots n = none) ↔ Clear w a) := by
  have hstep : ∀ (s : World σ) a t, (Inv s ∧ Undispatched s) → Clear s a → step s a = some t →
      Inv t ∧ Undispatched t := fun s a t h hc hs =>
    ⟨inv_step h.1 hs, undispatched_step h.1 h.2 hc hs⟩
  have hbegin : Inv (begin : World σ) ∧ Undispatched (begin : World σ) :=
    ⟨inv_begin, fun _ _ => rfl, nofun⟩
  obtain ⟨hinv, hund⟩ := run_keeps hstep hbegin hm hr
  exact ⟨hund, fun a w' hs => handsOut_empty_iff hinv hs⟩

/-- Three files are open, then a socket is opened as descriptor 3 and closed, up to some statement. -/
def closing (n : ℕ) : List (Act ℕ) :=
  [.openFile 0, .openFile 1, .openFile 2, .pipe 50 3 4, .create ⟨(3, 4), 50, 0⟩ true, .close 3] ++
    List.replicate n (.closer 3)

theorem closing_runs : (run step begin (closing 1)).isSome := by decide +kernel

/-- The kernel hands 3 out again before its slot is cleared. -/
theorem slot_occupied : ¬ ∀ (as : List (Act ℕ)) (w w' : World ℕ) (a : Act ℕ),
    run step begin as = some w → step w a = some w' → ∀ n ∈ handsOut a, w.slots n = none := by
  intro h
  have hopens : (step (Option.get _ closing_runs) (.openFile 3)).isSome := by decide +kernel
  have hempty := h (closing 1) _ _ (.openFile 3) (Option.some_get closing_runs).symm
    (Option.some_get hopens).symm 3 (List.mem_singleton_self 3)
  revert hempty
  decide +kernel

theorem closed_runs : (run step begin (closing 4)).isSome := by decide +kernel

/-- Once the slot is cleared, 3 can be handed out. -/
theorem recycled_numbers_closed : Undispatched (Option.get _ closed_runs) ∧ ∀ a w',
    step (Option.get _ closed_runs) a = some w' →
      ((∀ n ∈ handsOut a, (Option.get _ closed_runs).slots n = none) ↔
        Clear (Option.get _ closed_runs) a) :=
  recycled_numbers (by decide +kernel) (Option.some_get closed_runs).symm

end FdPicotcp.Closing
