import Mathlib.Tactic.Common

/-! Programs as trees of atomic actions.

    A program asks for an action and goes on with the answer, so what comes between two actions (the
    steps of other threads) is left to whoever runs it. A monitor follows the actions; `Watched` says
    that it lets a program through, whatever the answers are, and that it meets `post` at the end.
    The rules take a program apart like those for preconditions: `watched_bind` for sequences,
    `Watched.step` for the action that is done next. -/

namespace Program

variable {A : Type} {R : A → Type} {W α β : Type}

/-- `R a` is the type of the answers to `a`. -/
inductive Prog (A : Type) (R : A → Type) (α : Type) where
  | ret (x : α)
  | act (a : A) (k : R a → Prog A R α)

/-- What comes after a program. -/
def Prog.bind : Prog A R α → (α → Prog A R β) → Prog A R β
  | .ret x, f => f x
  | .act a k, f => .act a fun r => (k r).bind f

instance : Monad (Prog A R) where
  pure := .ret
  bind := .bind

/-- One action. -/
def perform (a : A) : Prog A R (R a) := .act a .ret

/-- `allows` is what is demanded of the next action, `next` where the monitor goes with it, `may` what
    is known of its answers. -/
structure Monitor (A : Type) (R : A → Type) (W : Type) where
  allows : W → A → Prop
  next : W → A → W
  may : ∀ a, R a → Prop

variable {m : Monitor A R W}

/-- The monitor in state `w` lets the program through, and `post` holds where it returns. -/
def Watched (m : Monitor A R W) (post : W → α → Prop) : W → Prog A R α → Prop
  | w, .ret x => post w x
  | w, .act a k => m.allows w a ∧ ∀ r, m.may a r → Watched m post (m.next w a) (k r)

theorem watched_pure {post : W → α → Prop} {w : W} {x : α} (h : post w x) :
    Watched m post w (pure x : Prog A R α) := h

theorem watched_act {post : W → α → Prop} {w : W} {a : A} {k : R a → Prog A R α}
    (h : m.allows w a) (hk : ∀ r, m.may a r → Watched m post (m.next w a) (k r)) :
    Watched m post w (.act a k) := ⟨h, hk⟩

/-- SEQUENCE: the second program is watched from wherever the first one returns. -/
theorem watched_bind {mid : W → α → Prop} {post : W → β → Prop} {w : W} {p : Prog A R α}
    {f : α → Prog A R β} (hp : Watched m mid w p) (hf : ∀ w x, mid w x → Watched m post w (f x)) :
    Watched m post w (p >>= f) := by
  induction p generalizing w with
  | ret x => exact hf w x hp
  | act a k ih => exact ⟨hp.1, fun r hr => ih r (hp.2 r hr)⟩

/-- An action, and then a program. -/
theorem watched_perform {post : W → β → Prop} {w : W} {a : A} {f : R a → Prog A R β}
    (h : m.allows w a) (hf : ∀ r, m.may a r → Watched m post (m.next w a) (f r)) :
    Watched m post w (perform a >>= f) := ⟨h, hf⟩

/-- The next action, done by a handler on a state of type `G`. -/
def Prog.next {G : Type} (handler : G → (a : A) → Option (R a × G)) (g : G) :
    Prog A R α → Option (G × Prog A R α)
  | .ret _ => none
  | .act a k => (handler g a).map fun (r, g) => (g, k r)

/-- A program that is left alone, up to where it returns. -/
def Prog.exec {G : Type} (handler : G → (a : A) → Option (R a × G)) :
    Prog A R α → G → Option (α × G)
  | .ret x, g => some (x, g)
  | .act a k, g => (handler g a).bind fun (r, g) => (k r).exec handler g

section Exec
variable {G : Type} {handler : G → (a : A) → Option (R a × G)} {g : G}

@[simp] theorem exec_pure (x : α) : (pure x : Prog A R α).exec handler g = some (x, g) := rfl

@[simp] theorem exec_perform (a : A) : (perform a : Prog A R (R a)).exec handler g = handler g a :=
  Option.bind_fun_some (handler g a)

@[simp] theorem exec_bind (p : Prog A R α) (f : α → Prog A R β) :
    (p >>= f).exec handler g = (p.exec handler g).bind fun (x, g) => (f x).exec handler g := by
  induction p generalizing g with
  | ret x => rfl
  | act a k ih =>
    change (handler g a).bind (fun (r, g) => (k r >>= f).exec handler g) = _
    simp only [Prog.exec, ih, Option.bind_assoc]

end Exec

/-- STEP: a handler whose answers are as known leaves a watched program. -/
theorem Watched.step {G : Type} {handler : G → (a : A) → Option (R a × G)} {post : W → α → Prop}
    {g g' : G} {w : W} {p p' : Prog A R α} (h : Watched m post w p)
    (hmay : ∀ g a r g', handler g a = some (r, g') → m.may a r)
    (hs : p.next handler g = some (g', p')) :
    ∃ a k r, p = .act a k ∧ handler g a = some (r, g') ∧ m.allows w a ∧
      Watched m post (m.next w a) p' := by
  cases p with
  | ret x => cases hs
  | act a k =>
    simp only [Prog.next, Option.map_eq_some_iff, Prod.mk.injEq, Prod.exists] at hs
    obtain ⟨r, u, hh, rfl, rfl⟩ := hs
    exact ⟨a, k, r, rfl, hh, h.1, h.2 r (hmay g a r u hh)⟩

end Program
