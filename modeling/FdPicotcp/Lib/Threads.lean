import FdPicotcp.Lib.Transition

/-! Threads that take turns on a shared state.

    A thread is a partial step function on the shared state and its own; `step` lets one of them
    move. The order of the labels is the interleaving, so what holds after every schedule holds
    under every interleaving. -/

namespace Threads

variable {ι G L β : Type*} [DecidableEq ι]

/-- The shared state and what each thread has of its own. -/
structure Pool (ι G L : Type*) where
  shared : G
  locals : ι → L

/-- The thread of the label moves. -/
def step (ts : G → L → β → Option (G × L)) (s : Pool ι G L) (a : ι × β) : Option (Pool ι G L) :=
  (ts s.shared (s.locals a.1) a.2).map fun (g, l) => ⟨g, Function.update s.locals a.1 l⟩

variable {ts : G → L → β → Option (G × L)} {s s' : Pool ι G L} {i : ι} {b : β}

/-- A step is one of its thread, and moves no other. -/
theorem step_eq_some : step ts s (i, b) = some s' ↔
    ∃ g l, ts s.shared (s.locals i) b = some (g, l) ∧ s' = ⟨g, Function.update s.locals i l⟩ := by
  simp only [step, Option.map_eq_some_iff, Prod.exists]
  constructor
  · rintro ⟨g, l, h, rfl⟩
    exact ⟨g, l, h, rfl⟩
  · rintro ⟨g, l, h, rfl⟩
    exact ⟨g, l, h, rfl⟩

end Threads
