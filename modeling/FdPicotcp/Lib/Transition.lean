import Mathlib.Tactic.Common

/-! Runs of a labelled transition system given by a partial step function.

    A system is `step : σ → α → Option σ`: the label says who moves and what the environment
    chooses, `none` says that the move is not enabled. `run` executes a schedule (a list of
    labels), `Meets` says that every step of a schedule is taken in a state that satisfies a side
    condition. `run_keeps` is the invariant rule for such runs and `simulate` carries a run of one
    system to a run of a more abstract one. -/

namespace Transition

variable {σ α τ β : Type*}

/-! Schedules call their threads `0` and `1`. -/

instance oneThread : @NeZero ℕ Zero.ofOfNat0 1 := ⟨Nat.one_ne_zero⟩

instance twoThreads : @NeZero ℕ Zero.ofOfNat0 2 := ⟨Nat.succ_ne_zero 1⟩

/-- Execute a schedule; `none` as soon as a label is not enabled. -/
def run (step : σ → α → Option σ) : σ → List α → Option σ
  | s, [] => some s
  | s, a :: as => (step s a).bind fun t => run step t as

/-- Every label of the schedule is taken in a state that meets `C`. -/
def Meets (step : σ → α → Option σ) (C : σ → α → Prop) : σ → List α → Prop
  | _, [] => True
  | s, a :: as => C s a ∧ match step s a with
    | none => True
    | some t => Meets step C t as

instance Meets.decidable (step : σ → α → Option σ) (C : σ → α → Prop) [∀ s a, Decidable (C s a)] :
    ∀ s as, Decidable (Meets step C s as)
  | _, [] => isTrue trivial
  | s, a :: as => by
    unfold Meets
    cases step s a with
    | none => exact instDecidableAnd
    | some t => exact @instDecidableAnd _ _ _ (Meets.decidable step C t as)

variable {step : σ → α → Option σ} {C : σ → α → Prop}

@[simp] theorem run_nil (s : σ) : run step s [] = some s := rfl

theorem run_cons {s u : σ} {a : α} {as : List α} :
    run step s (a :: as) = some u ↔ ∃ t, step s a = some t ∧ run step t as = some u := by
  rw [run, Option.bind_eq_some_iff]

theorem run_append {s u : σ} {k l : List α} :
    run step s (k ++ l) = some u ↔ ∃ t, run step s k = some t ∧ run step t l = some u := by
  induction k generalizing s with
  | nil => simp
  | cons a k ih =>
    simp only [List.cons_append, run_cons, ih]
    constructor
    · rintro ⟨t, hs, v, hv, hu⟩
      exact ⟨v, ⟨t, hs, hv⟩, hu⟩
    · rintro ⟨v, ⟨t, hs, hv⟩, hu⟩
      exact ⟨t, hs, v, hv, hu⟩

theorem meets_cons {s t : σ} {a : α} {as : List α} (hs : step s a = some t) :
    Meets step C s (a :: as) ↔ C s a ∧ Meets step C t as := by
  rw [Meets, hs]

/-- A side condition on the labels alone. -/
theorem meets_of_forall {P : α → Prop} {s : σ} {as : List α} (h : ∀ a ∈ as, P a) :
    Meets step (fun _ a => P a) s as := by
  induction as generalizing s with
  | nil => trivial
  | cons a as ih =>
    refine ⟨h a (List.mem_cons_self ..), ?_⟩
    cases step s a with
    | none => trivial
    | some t => exact ih fun b hb => h b (List.mem_cons_of_mem _ hb)

theorem Meets.mono {D : σ → α → Prop} (h : ∀ s a, C s a → D s a) {s : σ} {as : List α}
    (hm : Meets step C s as) : Meets step D s as := by
  induction as generalizing s with
  | nil => trivial
  | cons a as ih =>
    obtain ⟨hc, hrest⟩ := hm
    refine ⟨h s a hc, ?_⟩
    cases hs : step s a with
    | none => trivial
    | some t => rw [hs] at hrest; exact ih hrest

theorem Meets.and {D : σ → α → Prop} {s : σ} {as : List α} (hc : Meets step C s as)
    (hd : Meets step D s as) : Meets step (fun s a => C s a ∧ D s a) s as := by
  induction as generalizing s with
  | nil => trivial
  | cons a as ih =>
    obtain ⟨hc, hcs⟩ := hc
    obtain ⟨hd, hds⟩ := hd
    refine ⟨⟨hc, hd⟩, ?_⟩
    cases hs : step s a with
    | none => trivial
    | some t =>
      rw [hs] at hcs hds
      exact ih hcs hds

/-- INVARIANT RULE: what every allowed step preserves, a run of allowed steps preserves. -/
theorem run_keeps {I : σ → Prop}
    (hstep : ∀ s a t, I s → C s a → step s a = some t → I t) :
    ∀ {as : List α} {s t : σ}, I s → Meets step C s as → run step s as = some t → I t
  | [], s, t, hi, _, hr => by
    rw [run_nil, Option.some.injEq] at hr
    exact hr ▸ hi
  | a :: as, s, t, hi, hm, hr => by
    obtain ⟨u, hu, hr⟩ := run_cons.mp hr
    rw [meets_cons hu] at hm
    exact run_keeps hstep (hstep s a u hi hm.1 hu) hm.2 hr

/-- INVARIANT RULE without a side condition. -/
theorem run_invariant {I : σ → Prop} (hstep : ∀ s a t, I s → step s a = some t → I t)
    {as : List α} {s t : σ} (hi : I s) (hr : run step s as = some t) : I t := by
  refine run_keeps (C := fun _ _ => True) (fun s a t hi _ hs => hstep s a t hi hs) hi ?_ hr
  exact meets_of_forall (P := fun _ => True) fun _ _ => trivial

/-- A run that does not go through has a first step that is not enabled. -/
theorem run_stuck {as : List α} {s : σ} (h : run step s as = none) :
    ∃ k a l t, as = k ++ a :: l ∧ run step s k = some t ∧ step t a = none := by
  induction as generalizing s with
  | nil => cases h
  | cons a as ih =>
    cases hs : step s a with
    | none => exact ⟨[], a, as, s, rfl, rfl, hs⟩
    | some t =>
      rw [run, hs] at h
      obtain ⟨k, b, l, u, rfl, hu, hstuck⟩ := ih h
      exact ⟨a :: k, b, l, u, rfl, run_cons.mpr ⟨t, hs, hu⟩, hstuck⟩

/-- A side condition that an invariant turns into another. -/
theorem Meets.of_invariant {D : σ → α → Prop} {I : σ → Prop}
    (hstep : ∀ s a t, I s → C s a → step s a = some t → I t)
    (hcond : ∀ s a, I s → C s a → D s a) {s : σ} {as : List α} (hi : I s)
    (hm : Meets step C s as) : Meets step D s as := by
  induction as generalizing s with
  | nil => trivial
  | cons a as ih =>
    obtain ⟨hc, hrest⟩ := hm
    refine ⟨hcond s a hi hc, ?_⟩
    cases hs : step s a with
    | none => trivial
    | some t =>
      rw [hs] at hrest
      exact ih (hstep s a t hi hc hs) hrest

/-- `P` holds in every state of the run. -/
def Everywhere (step : σ → α → Option σ) (P : σ → Prop) (s : σ) (as : List α) : Prop :=
  ∀ k l u, as = k ++ l → run step s k = some u → P u

/-- A property that a step keeps exactly if it is allowed holds in every state of a run exactly if
    all its steps are. `I` is what the steps keep beside it. -/
theorem everywhere_iff_meets {I P : σ → Prop}
    (hstep : ∀ s a t, I s → P s → step s a = some t → I t ∧ (P t ↔ C s a)) {as : List α} {s t : σ}
    (hi : I s) (hp : P s) (hr : run step s as = some t) :
    Everywhere step P s as ↔ Meets step C s as := by
  induction as generalizing s with
  | nil =>
    refine iff_of_true ?_ trivial
    intro k l u hkl hu
    rw [(List.append_eq_nil_iff.mp hkl.symm).1, run_nil, Option.some.injEq] at hu
    exact hu ▸ hp
  | cons a as ih =>
    obtain ⟨v, hv, hr⟩ := run_cons.mp hr
    obtain ⟨hi', hiff⟩ := hstep s a v hi hp hv
    rw [meets_cons hv]
    constructor
    · intro hall
      have hp' : P v := hall [a] as v rfl (run_cons.mpr ⟨v, hv, rfl⟩)
      refine ⟨hiff.mp hp', (ih hi' hp' hr).mp ?_⟩
      intro k l u hkl hu
      exact hall (a :: k) l u (by rw [hkl, List.cons_append]) (run_cons.mpr ⟨v, hv, hu⟩)
    · rintro ⟨hc, hm⟩ k l u hkl hu
      cases k with
      | nil =>
        rw [run_nil, Option.some.injEq] at hu
        exact hu ▸ hp
      | cons b k =>
        rw [List.cons_append, List.cons.injEq] at hkl
        obtain ⟨rfl, hkl⟩ := hkl
        obtain ⟨v', hv', hu⟩ := run_cons.mp hu
        rw [hv, Option.some.injEq] at hv'
        subst hv'
        exact (ih hi' (hiff.mpr hc) hr).mpr hm k l u hkl hu

/-- States joined by a schedule whose steps all meet `C`. -/
def Path (step : σ → α → Option σ) (C : σ → α → Prop) (s t : σ) : Prop :=
  ∃ as, Meets step C s as ∧ run step s as = some t

theorem Path.refl (s : σ) : Path step C s s := ⟨[], trivial, rfl⟩

theorem Path.single {s t : σ} {a : α} (hc : C s a) (hs : step s a = some t) : Path step C s t :=
  ⟨[a], (meets_cons hs).mpr ⟨hc, trivial⟩, run_cons.mpr ⟨t, hs, rfl⟩⟩

theorem Path.trans {s t u : σ} : Path step C s t → Path step C t u → Path step C s u := by
  rintro ⟨as, hm, hr⟩ htu
  induction as generalizing s with
  | nil =>
    rw [run_nil, Option.some.injEq] at hr
    exact hr ▸ htu
  | cons a as ih =>
    obtain ⟨v, hv, hr⟩ := run_cons.mp hr
    rw [meets_cons hv] at hm
    obtain ⟨bs, hm', hr'⟩ := ih hm.2 hr
    exact ⟨a :: bs, (meets_cons hv).mpr ⟨hm.1, hm'⟩, run_cons.mpr ⟨v, hv, hr'⟩⟩

theorem Path.keeps {I : σ → Prop} (hstep : ∀ s a t, I s → C s a → step s a = some t → I t)
    {s t : σ} (hp : Path step C s t) (hi : I s) : I t := by
  obtain ⟨as, hm, hr⟩ := hp
  exact run_keeps hstep hi hm hr

/-- SIMULATION RULE: if `abs` turns every allowed step into an abstract path, it turns every run of
    allowed steps into one. `I` is what the concrete run preserves on the way. -/
theorem simulate {astep : τ → β → Option τ} {D : τ → β → Prop} {I : σ → Prop} (abs : σ → τ)
    (hinv : ∀ s a t, I s → C s a → step s a = some t → I t)
    (hsim : ∀ s a t, I s → C s a → step s a = some t → Path astep D (abs s) (abs t)) :
    ∀ {as : List α} {s t : σ}, I s → Meets step C s as → run step s as = some t →
      Path astep D (abs s) (abs t)
  | [], s, t, _, _, hr => by
    rw [run_nil, Option.some.injEq] at hr
    exact hr ▸ Path.refl _
  | a :: as, s, t, hi, hm, hr => by
    obtain ⟨u, hu, hr⟩ := run_cons.mp hr
    rw [meets_cons hu] at hm
    exact (hsim s a u hi hm.1 hu).trans
      (simulate abs hinv hsim (hinv s a u hi hm.1 hu) hm.2 hr)

end Transition
