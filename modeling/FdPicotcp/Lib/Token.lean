import Mathlib.Data.Fintype.Basic
import Mathlib.Logic.Function.Basic
import FdPicotcp.Lib.Transition

/-! A counter used as a wake-up token between parties that look before they post.

    A channel is `ready` or not. A party that makes it ready *owes* a post: it will look at the
    counter and post only if it saw zero. A party that acquires the token takes from the channel
    and owes a post again, unless it decides to leave. The look and the post are separate steps, so
    the counter may change in between, and more than one party may post.

        supply ──▶ owes ──look──▶ saw v ──settle──▶ out
        acquire ─▶ owes ──take──▶ out (or still owes)

    The law of the protocol is `Covered`: a ready channel has a positive counter or a party that
    still guarantees a post. Every step keeps it except a `take` that leaves the channel ready and
    walks away, which `Fair` excludes. -/

namespace Token
open Transition

/-- What a party still has to do. -/
inductive Phase where
  | out
  | owes
  | saw (v : ℕ)
  deriving DecidableEq

/-- The party guarantees that the counter is positive when it is done. -/
def Phase.Owing : Phase → Prop
  | .out => False
  | .owes => True
  | .saw v => v = 0

instance : DecidablePred Phase.Owing
  | .out => inferInstanceAs (Decidable False)
  | .owes => inferInstanceAs (Decidable True)
  | .saw v => inferInstanceAs (Decidable (v = 0))

/-- The channel, the counter, and where each party is. -/
structure St (κ : Type*) where
  ready : Prop
  value : ℕ
  party : κ → Phase

/-- Who moves, with the state `r` in which the move leaves the channel. -/
inductive Label (κ : Type*) where
  | supply (p : κ) (r : Prop)
  | acquire (p : κ)
  | take (p : κ) (r : Prop) (again : Bool)
  | look (p : κ)
  | settle (p : κ)
  | post (p : κ)

variable {κ : Type*} [DecidableEq κ]

/-- Move one party to another phase. -/
def St.move (t : St κ) (p : κ) (ph : Phase) : St κ :=
  { t with party := Function.update t.party p ph }

@[simp] theorem move_party_self (t : St κ) (p : κ) (ph : Phase) : (t.move p ph).party p = ph :=
  Function.update_self ..

theorem move_party_of_ne {t : St κ} {p q : κ} (h : q ≠ p) (ph : Phase) :
    (t.move p ph).party q = t.party q :=
  Function.update_of_ne h ..

theorem move_self {t : St κ} {p : κ} {ph : Phase} (h : t.party p = ph) : t.move p ph = t := by
  rw [St.move, ← h, Function.update_eq_self]

/-- What a label does; a party moves only from where the label fits. -/
def step (t : St κ) : Label κ → Option (St κ)
  | .supply p r => some { t.move p .owes with ready := r }
  | .acquire p => if 0 < t.value then some { t.move p .owes with value := t.value - 1 } else none
  | .take p r again =>
    if t.party p = .owes then
      some { t.move p (if again then .owes else .out) with ready := r }
    else none
  | .look p => if t.party p = .owes then some (t.move p (.saw t.value)) else none
  | .settle p =>
    match t.party p with
    | .saw v => some { t.move p .out with value := if 0 < v then t.value else t.value + 1 }
    | _ => none
  | .post p => if t.party p = .owes then some { t with value := t.value + 1 } else none

/-- The token is there, or some party guarantees it. -/
def Credit (t : St κ) : Prop := 0 < t.value ∨ ∃ p, (t.party p).Owing

/-- The token is there, or some party other than `p` guarantees it. -/
def CreditBut (t : St κ) (p : κ) : Prop := 0 < t.value ∨ ∃ q, q ≠ p ∧ (t.party q).Owing

instance [Fintype κ] (t : St κ) : Decidable (Credit t) :=
  inferInstanceAs (Decidable (_ ∨ ∃ p, (t.party p).Owing))

instance [Fintype κ] (t : St κ) (p : κ) : Decidable (CreditBut t p) :=
  inferInstanceAs (Decidable (_ ∨ ∃ q, q ≠ p ∧ (t.party q).Owing))

/-- No wake-up is lost: a ready channel has credit. -/
def Covered (t : St κ) : Prop := t.ready → Credit t

/-- A `take` that leaves the channel ready stays in the protocol, or another party covers for it. -/
def Fair (t : St κ) : Label κ → Prop
  | .take p r again => r → again = true ∨ CreditBut t p
  | _ => True

omit [DecidableEq κ] in
theorem CreditBut.credit {t : St κ} {p : κ} : CreditBut t p → Credit t
  | .inl hv => .inl hv
  | .inr ⟨q, _, hq⟩ => .inr ⟨q, hq⟩

/-- Moving `p` to an owing phase gives credit. -/
theorem credit_move_owing {t : St κ} {p : κ} {ph : Phase} (h : ph.Owing) : Credit (t.move p ph) :=
  .inr ⟨p, by rwa [move_party_self]⟩

/-- Moving `p` to any phase keeps what the others guarantee. -/
theorem CreditBut.move {t : St κ} {p : κ} (h : CreditBut t p) (ph : Phase) :
    CreditBut (t.move p ph) p := by
  rcases h with hv | ⟨q, hne, hq⟩
  · exact .inl hv
  · exact .inr ⟨q, hne, by rwa [move_party_of_ne hne]⟩

omit [DecidableEq κ] in
/-- Credit is the credit of the others, unless `p` itself owes. -/
theorem credit_iff_of_not_owing {t : St κ} {p : κ} (h : ¬ (t.party p).Owing) :
    Credit t ↔ CreditBut t p := by
  refine ⟨?_, CreditBut.credit⟩
  rintro (hv | ⟨q, hq⟩)
  · exact .inl hv
  · exact .inr ⟨q, fun he => h (he ▸ hq), hq⟩

/-- Looking at the counter neither gives nor loses credit. -/
theorem credit_look {t u : St κ} {p : κ} (hs : step t (.look p) = some u) : Credit t ∧ Credit u := by
  simp only [step, Option.ite_none_right_eq_some, Option.some.injEq] at hs
  obtain ⟨hp, rfl⟩ := hs
  refine ⟨.inr ⟨p, by rw [hp]; trivial⟩, ?_⟩
  rcases Nat.eq_zero_or_pos t.value with hv | hv
  · exact credit_move_owing hv
  · exact .inl hv

/-- Acting on what was seen neither gives nor loses credit. -/
theorem credit_settle {t u : St κ} {p : κ} (hs : step t (.settle p) = some u) :
    Credit u ↔ Credit t := by
  rw [step] at hs
  cases hp : t.party p with
  | out => rw [hp] at hs; cases hs
  | owes => rw [hp] at hs; cases hs
  | saw v =>
    simp only [hp, Option.some.injEq] at hs
    subst hs
    rcases Nat.eq_zero_or_pos v with hv | hv
    · have ht : Credit t := .inr ⟨p, by rw [hp]; exact hv⟩
      exact iff_of_true (.inl (by simp [hv])) ht
    · have hno : ¬ (t.party p).Owing := by rw [hp]; exact Nat.pos_iff_ne_zero.mp hv
      have hno' : ¬ ((t.move p .out).party p).Owing := by rw [move_party_self]; exact id
      simp only [if_pos hv]
      rw [credit_iff_of_not_owing hno]
      constructor
      · intro hc
        rcases (credit_iff_of_not_owing (t := t.move p .out) hno').mp hc with hv' | ⟨q, hne, hq⟩
        · exact .inl hv'
        · exact .inr ⟨q, hne, by rwa [move_party_of_ne hne] at hq⟩
      · exact fun hc => (hc.move .out).credit

/-- The steps that neither fill nor use the channel. -/
def Label.Quiet : Label κ → Prop
  | .look _ | .settle _ | .post _ => True
  | _ => False

/-- Quiet steps change neither readiness nor credit. -/
theorem quiet_step {t u : St κ} {l : Label κ} (hl : l.Quiet) (hs : step t l = some u) :
    u.ready = t.ready ∧ (Credit u ↔ Credit t) := by
  cases l with
  | look p =>
    obtain ⟨ht, hu⟩ := credit_look hs
    simp only [step, Option.ite_none_right_eq_some, Option.some.injEq] at hs
    obtain ⟨-, rfl⟩ := hs
    exact ⟨rfl, iff_of_true hu ht⟩
  | settle p =>
    refine ⟨?_, credit_settle hs⟩
    rw [step] at hs
    split at hs
    · simp only [Option.some.injEq] at hs
      subst hs; rfl
    · cases hs
  | post p =>
    simp only [step, Option.ite_none_right_eq_some, Option.some.injEq] at hs
    obtain ⟨hp, rfl⟩ := hs
    exact ⟨rfl, iff_of_true (.inl (Nat.succ_pos _)) (.inr ⟨p, by rw [hp]; trivial⟩)⟩
  | supply p r | acquire p | take p r again => exact absurd hl id

/-- Whoever supplies owes. -/
theorem credit_supply {t u : St κ} {p : κ} {r : Prop} (hs : step t (.supply p r) = some u) :
    Credit u := by
  simp only [step, Option.some.injEq] at hs
  subst hs
  exact credit_move_owing (t := t) (p := p) (by trivial)

/-- After a take there is credit if the taker stays or the others have it. -/
theorem credit_take {t u : St κ} {p : κ} {r : Prop} {again : Bool}
    (hs : step t (.take p r again) = some u) : Credit u ↔ again = true ∨ CreditBut t p := by
  simp only [step, Option.ite_none_right_eq_some, Option.some.injEq] at hs
  obtain ⟨-, rfl⟩ := hs
  cases again with
  | true => exact iff_of_true (credit_move_owing (t := t) (p := p) (by trivial)) (.inl rfl)
  | false =>
    have hno : ¬ ((t.move p .out).party p).Owing := by rw [move_party_self]; exact id
    constructor
    · intro hc
      rcases (credit_iff_of_not_owing (t := t.move p .out) hno).mp hc with hv | ⟨q, hne, hq⟩
      · exact .inr (.inl hv)
      · exact .inr (.inr ⟨q, hne, by rwa [move_party_of_ne hne] at hq⟩)
    · rintro (hf | hc)
      · cases hf
      · exact (hc.move .out).credit

/-- STEP: every fair step keeps the law. -/
theorem covered_step {t u : St κ} {l : Label κ} (ht : Covered t) (hf : Fair t l)
    (hs : step t l = some u) : Covered u := by
  cases l with
  | supply p r => exact fun _ => credit_supply hs
  | acquire p =>
    simp only [step, Option.ite_none_right_eq_some, Option.some.injEq] at hs
    obtain ⟨_, rfl⟩ := hs
    exact fun _ => .inr ⟨p, by simp [Phase.Owing]⟩
  | take p r again =>
    intro hr
    rw [credit_take hs]
    simp only [step, Option.ite_none_right_eq_some, Option.some.injEq] at hs
    obtain ⟨_, rfl⟩ := hs
    exact hf hr
  | look p | settle p | post p =>
    obtain ⟨hready, hcredit⟩ := quiet_step (by trivial) hs
    exact fun hr => hcredit.mpr (ht (hready ▸ hr))

/-- RUN: a path of fair steps keeps the law. -/
theorem covered_path {t u : St κ} (hp : Path step Fair t u) (ht : Covered t) : Covered u :=
  hp.keeps (fun _ _ _ hc hf hs => covered_step hc hf hs) ht

omit [DecidableEq κ] in
/-- When no party owes anything, a ready channel has its token in the counter. -/
theorem Covered.value_pos {t : St κ} (ht : Covered t) (hq : ∀ p, ¬ (t.party p).Owing)
    (hr : t.ready) : 0 < t.value := by
  rcases ht hr with hv | ⟨p, hp⟩
  · exact hv
  · exact absurd hp (hq p)

end Token
