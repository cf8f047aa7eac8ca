import FdPicotcp.Table.Closing

/-! Where does the byte of `handle_wakeup` go?

    The stack thread keeps the entry it has looked up over four steps and takes no lock. A `close()`
    of the same descriptor gives the pipe back and frees the entry meanwhile, and the kernel hands
    the number of the write end to whoever opens a file next. `Guarded` says what must not come
    between. -/

namespace FdPicotcp.Stray
open Transition Closing

variable {σ : Type}

/-- The entry that the stack thread will use again. -/
def held : Wakeup σ → Option (FdElem σ)
  | .write _ l | .count l | .post l => some l
  | .rest | .fault => none

/-- The entry whose pipe it is about to write to. -/
def target : Wakeup σ → Option (FdElem σ)
  | .write _ l => some l
  | .count _ | .post _ | .rest | .fault => none

/-- The search for `s` gets as far as slot `i`. -/
def Reaches (w : World σ) (s : σ) (i : ℕ) : Prop := ∀ j, j < i → ∀ l ∈ w.slots j, l.socket ≠ s

/-- No entry is freed while the stack thread holds it, no number is handed out again that it is about
    to write to, and a search meets no entry that is freed, nor one whose number has been handed out
    again. -/
def Guarded (w : World σ) : Act σ → Prop
  | .closer n => w.closers n = some .free → ∀ l ∈ w.slots n, ∀ k ∈ held w.wakeup, k.pipe ≠ l.pipe
  | .wakeup s => ∀ i, i < w.fdTableSize → Reaches w s i → w.closers i ≠ some .clear ∧
    ∀ l ∈ w.slots i, l.socket = s → Past1 (w.closers i) → w.kernel l.fd.2 = none
  | a => ∀ n ∈ handsOut a, ∀ l ∈ target w.wakeup, l.fd.2 ≠ n

instance [DecidableEq σ] (w : World σ) (s : σ) (i : ℕ) : Decidable (Reaches w s i) :=
  inferInstanceAs (Decidable (∀ _, _))

instance [DecidableEq σ] (w : World σ) (a : Act σ) : Decidable (Guarded w a) := by
  unfold Guarded
  split <;> infer_instance

/-- The byte went to the write end of the pipe made for its socket, or to no file. -/
def Own (x : Byte σ) : Prop :=
  x.elem.socket = x.socket ∧ (x.file = none ∨ x.file = some (.writeEnd x.elem.pipe))

/-- The stack thread holds no freed entry, and writes to the entry's own pipe or to nothing. -/
def WakeupOk (w : World σ) : Wakeup σ → Prop
  | .rest => True
  | .write s l => l.socket = s ∧ l.pipe ∉ w.freed ∧
    (w.kernel l.fd.2 = none ∨ w.kernel l.fd.2 = some (.writeEnd l.pipe))
  | .count l | .post l => l.pipe ∉ w.freed
  | .fault => False

structure Sound (w : World σ) : Prop where
  inv : Inv w
  wakeup : WakeupOk w w.wakeup
  bytes : ∀ x ∈ w.written, Own x

/-- A search from slot `k` comes to the entry `l` in slot `i`. -/
structure ComesTo (w : World σ) (s : σ) (k m i : ℕ) (l : FdElem σ) : Prop where
  lo : k ≤ i
  hi : i < k + m
  slot : w.slots i = some l
  before : ∀ j, k ≤ j → j < i → ∀ l' ∈ w.slots j, l'.socket ≠ s

theorem ComesTo.pass {w : World σ} {s : σ} {k m i : ℕ} {l : FdElem σ}
    (h : ComesTo w s (k + 1) m i l) (hk : ∀ l' ∈ w.slots k, l'.socket ≠ s) :
    ComesTo w s k (m + 1) i l := by
  have hlo := h.lo
  have hhi := h.hi
  refine ⟨by omega, by omega, h.slot, ?_⟩
  intro j lo hj
  rcases Nat.eq_or_lt_of_le lo with rfl | hlt
  · exact hk
  · exact h.before j hlt hj

theorem ComesTo.here {w : World σ} {s : σ} {k : ℕ} {l : FdElem σ} (h : w.slots k = some l) (m : ℕ) :
    ComesTo w s k (m + 1) k l :=
  ⟨Nat.le_refl k, by omega, h, fun _ lo hj => absurd hj (by omega)⟩

/-- Where a search stops: at a freed entry, or at one for the socket. -/
def Stops (w : World σ) (s : σ) (k m : ℕ) : Option (Option (FdElem σ)) → Prop
  | none => ∃ i l, ComesTo w s k m i l ∧ l.pipe ∈ w.freed
  | some (some l) => ∃ i, ComesTo w s k m i l ∧ l.pipe ∉ w.freed ∧ l.socket = s
  | some none => True

/-- What the stack thread holds survives a step that frees nothing it holds and hands out no number
    it is about to write to. -/
theorem WakeupOk.mono {w w' : World σ} {u : Wakeup σ} (h : WakeupOk w u)
    (hfreed : ∀ l ∈ held u, l.pipe ∈ w'.freed → l.pipe ∈ w.freed)
    (hkernel : ∀ l ∈ target u, w'.kernel l.fd.2 = none ∨ w'.kernel l.fd.2 = w.kernel l.fd.2) :
    WakeupOk w' u := by
  cases u with
  | rest => trivial
  | write s l =>
    obtain ⟨hs, hp, hk⟩ := h
    refine ⟨hs, fun hp' => hp (hfreed l rfl hp'), ?_⟩
    rcases hkernel l rfl with hnone | hsame
    · exact .inl hnone
    · rw [hsame]
      exact hk
  | count l => exact fun hp' => h (hfreed l rfl hp')
  | post l => exact fun hp' => h (hfreed l rfl hp')
  | fault => exact h

variable [DecidableEq σ]

theorem search_stops (w : World σ) (s : σ) (k m : ℕ) :
    Stops w s k m (search w s (List.range' k m)) := by
  induction m generalizing k with
  | zero => trivial
  | succ m ih =>
    have hpass : (∀ l ∈ w.slots k, l.socket ≠ s) →
        Stops w s k (m + 1) (search w s (List.range' (k + 1) m)) := by
      intro hk
      have hrest := ih (k + 1)
      generalize search w s (List.range' (k + 1) m) = r at hrest ⊢
      rcases r with _ | _ | l
      · obtain ⟨i, l, hl, hp⟩ := hrest
        exact ⟨i, l, hl.pass hk, hp⟩
      · trivial
      · obtain ⟨i, hl, hp⟩ := hrest
        exact ⟨i, hl.pass hk, hp⟩
    rw [List.range'_succ, search]
    split
    · next hnone => exact hpass (by simp [hnone])
    · next l hl =>
      split
      · next hp => exact ⟨k, l, .here hl m, hp⟩
      · next hp =>
        split
        · next hs => exact ⟨k, .here hl m, hp, hs⟩
        · next hs =>
          refine hpass ?_
          rintro l' hl'
          rw [hl, Option.mem_some_iff] at hl'
          exact hl' ▸ hs

/-- STEP of another thread. -/
theorem wakeupOk_step {w w' : World σ} {a : Act σ} (h : WakeupOk w w.wakeup) (hc : Guarded w a)
    (hs : step w a = some w') (hw : ∀ s, a ≠ .wakeup s) (hstack : a ≠ .stack) :
    WakeupOk w' w.wakeup ∧ w'.wakeup = w.wakeup ∧ w'.written = w.written := by
  have hgiven : ∀ m n, Function.update w.kernel n none m = none ∨
      Function.update w.kernel n none m = w.kernel m := by
    intro m n
    rcases eq_or_ne m n with rfl | hne
    · exact .inl (Function.update_self ..)
    · exact .inr (Function.update_of_ne hne ..)
  cases a with
  | openFile n =>
    simp only [step, Option.ite_none_right_eq_some, Option.some.injEq] at hs
    obtain ⟨-, rfl⟩ := hs
    refine ⟨h.mono (fun _ _ => id) fun l hl => .inr ?_, rfl, rfl⟩
    exact Function.update_of_ne (hc n (List.mem_singleton_self n) l hl) ..
  | closeFile n =>
    simp only [step, Option.ite_none_right_eq_some, Option.some.injEq] at hs
    obtain ⟨-, rfl⟩ := hs
    exact ⟨h.mono (fun _ _ => id) fun l _ => hgiven l.fd.2 n, rfl, rfl⟩
  | pipe s n₀ n₁ =>
    simp only [step, Option.ite_none_right_eq_some, Option.some.injEq] at hs
    obtain ⟨-, rfl⟩ := hs
    refine ⟨h.mono (fun _ _ => id) fun l hl => .inr ?_, rfl, rfl⟩
    have h₀ := hc n₀ (by simp [handsOut]) l hl
    have h₁ := hc n₁ (by simp [handsOut]) l hl
    simp only [Function.update_of_ne h₁, Function.update_of_ne h₀]
  | create l ok =>
    simp only [step, Option.ite_none_right_eq_some] at hs
    obtain ⟨-, hs⟩ := hs
    have hsame : ∀ u : World σ, u.kernel = w.kernel → u.freed = w.freed → WakeupOk u w.wakeup :=
      fun u hk hf => h.mono (fun _ _ => by rw [hf]; exact id) fun _ _ => .inr (by rw [hk])
    split at hs
    · rw [Option.some.injEq] at hs
      subst hs
      exact ⟨hsame _ rfl rfl, rfl, rfl⟩
    · split at hs
      · cases hs
      · split at hs <;> rw [Option.some.injEq] at hs <;> subst hs <;>
          exact ⟨hsame _ rfl rfl, rfl, rfl⟩
  | close n =>
    simp only [step, Option.ite_none_right_eq_some, Option.some.injEq] at hs
    obtain ⟨-, rfl⟩ := hs
    exact ⟨h.mono (fun _ _ => id) fun _ _ => .inr rfl, rfl, rfl⟩
  | closer n =>
    simp only [step] at hs
    split at hs <;> simp only [Option.some.injEq, reduceCtorEq] at hs <;> subst hs
    · exact ⟨h.mono (fun _ _ => id) fun k _ => hgiven k.fd.2 _, rfl, rfl⟩
    · exact ⟨h.mono (fun _ _ => id) fun k _ => hgiven k.fd.2 _, rfl, rfl⟩
    · next l hl hfree =>
      refine ⟨h.mono ?_ fun _ _ => .inr rfl, rfl, rfl⟩
      intro k hk hp
      rcases List.mem_cons.mp hp with heq | hp
      · exact absurd heq (hc hfree l hl k hk)
      · exact hp
    · exact ⟨h.mono (fun _ _ => id) fun _ _ => .inr rfl, rfl, rfl⟩
  | wakeup s => exact absurd rfl (hw s)
  | stack => exact absurd rfl hstack

/-- What a search finds can be written to, and it does find no freed entry. -/
theorem search_guarded {w : World σ} (hi : Inv w) {s : σ} (hc : Guarded w (.wakeup s)) :
    search w s (List.range w.fdTableSize) ≠ none ∧
      ∀ l, search w s (List.range w.fdTableSize) = some (some l) → WakeupOk w (.write s l) := by
  have hstops := search_stops w s 0 w.fdTableSize
  rw [← List.range_eq_range'] at hstops
  generalize search w s (List.range w.fdTableSize) = r at hstops ⊢
  rcases r with _ | _ | l
  · obtain ⟨i, l, hl, hp⟩ := hstops
    refine absurd (hi.freed i l hl.slot hp) (hc i ?_ ?_).1
    · simpa using hl.hi
    · exact fun j hj => hl.before j (Nat.zero_le j) hj
  · exact ⟨nofun, nofun⟩
  · refine ⟨nofun, ?_⟩
    rintro _ ⟨⟩
    obtain ⟨i, hl, hp, hsock⟩ := hstops
    refine ⟨hsock, hp, ?_⟩
    have hopen := (hc i (by simpa using hl.hi) fun j hj => hl.before j (Nat.zero_le j) hj).2 l hl.slot
      hsock
    exact (hi.write i l hl.slot).elim .inr fun hpast => .inl (hopen hpast)

/-- STEP. -/
theorem sound_step {w w' : World σ} {a : Act σ} (h : Sound w) (hc : Guarded w a)
    (hs : step w a = some w') : Sound w' := by
  have hinv := inv_step h.inv hs
  by_cases hother : (∀ s, a ≠ .wakeup s) ∧ a ≠ .stack
  · obtain ⟨hok, hw, hb⟩ := wakeupOk_step h.wakeup hc hs hother.1 hother.2
    exact ⟨hinv, hw ▸ hok, hb ▸ h.bytes⟩
  · cases a with
    | wakeup s =>
      obtain ⟨hnone, hsome⟩ := search_guarded h.inv hc
      simp only [step] at hs
      split at hs <;> simp only [Option.some.injEq, reduceCtorEq] at hs <;> subst hs
      · next l _ hfound => exact ⟨hinv, hsome l hfound, h.bytes⟩
      · exact h
      · next hfault => exact absurd hfault hnone
    | stack =>
      have hok := h.wakeup
      simp only [step] at hs
      split at hs
      · next s l hw =>
        rw [hw] at hok
        obtain ⟨hsock, hp, hk⟩ := hok
        rw [if_neg hp, Option.some.injEq] at hs
        subst hs
        refine ⟨hinv, hp, ?_⟩
        intro x hx
        rcases List.mem_cons.mp hx with rfl | hx
        · exact ⟨hsock, hk⟩
        · exact h.bytes x hx
      · next l hw =>
        rw [hw] at hok
        have hp : l.pipe ∉ w.freed := hok
        rw [if_neg hp, Option.some.injEq] at hs
        subst hs
        exact ⟨hinv, hp, h.bytes⟩
      · next l hw =>
        rw [hw] at hok
        have hp : l.pipe ∉ w.freed := hok
        rw [if_neg hp, Option.some.injEq] at hs
        subst hs
        exact ⟨hinv, trivial, h.bytes⟩
      · cases hs
      · cases hs
    | _ => exact absurd (by simp) hother

/-- A BYTE GOES TO ITS OWN PIPE OR TO NOTHING, and no freed entry is used, in a guarded run. -/
theorem bytes_own {as : List (Act σ)} {w : World σ} (hm : Meets step Guarded begin as)
    (hr : run step begin as = some w) : w.wakeup ≠ .fault ∧ ∀ x ∈ w.written, Own x := by
  have hbegin : Sound (begin : World σ) := ⟨inv_begin, trivial, nofun⟩
  have hend := run_keeps (fun _ _ _ h hc hs => sound_step h hc hs) hbegin hm hr
  refine ⟨?_, hend.bytes⟩
  intro hfault
  have hok := hend.wakeup
  rw [hfault] at hok
  exact hok

/-- The stack thread has looked up descriptor 3 when it is closed; the next file that is opened
    becomes descriptor 4, and gets the byte. -/
def strayByte : List (Act ℕ) :=
  [.openFile 0, .openFile 1, .openFile 2, .pipe 50 3 4, .create ⟨(3, 4), 50, 0⟩ true, .wakeup 50, .close 3,
    .closer 3, .openFile 3, .closer 3, .openFile 4, .stack]

theorem strayByte_runs : (run step begin strayByte).isSome := by decide +kernel

theorem byte_strays : ¬ ∀ (as : List (Act ℕ)) (w : World ℕ), run step begin as = some w →
    w.wakeup ≠ .fault ∧ ∀ x ∈ w.written, Own x := by
  intro h
  have hown := (h strayByte _ (Option.some_get strayByte_runs).symm).2
    ⟨50, ⟨(3, 4), 50, 0⟩, some .other⟩ (by decide +kernel)
  rcases hown.2 with hnone | hown
  · cases hnone
  · cases hown

/-- The same close after the byte. -/
def byteFirst : List (Act ℕ) :=
  [.openFile 0, .openFile 1, .openFile 2, .pipe 50 3 4, .create ⟨(3, 4), 50, 0⟩ true, .wakeup 50, .stack, .close 3,
    .closer 3, .closer 3, .stack, .stack, .closer 3, .closer 3, .openFile 3, .openFile 4]

theorem byteFirst_runs : (run step begin byteFirst).isSome := by decide +kernel

theorem bytes_own_first : (Option.get _ byteFirst_runs).written =
      [⟨50, ⟨(3, 4), 50, 0⟩, some (.writeEnd 0)⟩] ∧
    (Option.get _ byteFirst_runs).wakeup ≠ .fault ∧
      ∀ x ∈ (Option.get _ byteFirst_runs).written, Own x :=
  ⟨by decide +kernel, bytes_own (by decide +kernel) (Option.some_get byteFirst_runs).symm⟩

end FdPicotcp.Stray
