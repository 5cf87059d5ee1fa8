import Mathlib.Algebra.BigOperators.Group.List.Basic
import Mathlib.Algebra.Order.Ring.Nat
import Mathlib.Data.List.Basic

namespace tlpi

section Interleave

variable {S A : Type} (step : S → A → Option S)

/-- One action after the other, each in a state in which it is enabled. -/
def follow : S → List A → Option S
  | s, [] => some s
  | s, a :: rest => (step s a).bind fun s' => follow s' rest

/-- No action is enabled. -/
def Stuck (s : S) : Prop := ∀ a, step s a = none

variable {step}

theorem follow_cons_eq_some_iff {s s' : S} {a : A} {rest : List A} :
    follow step s (a :: rest) = some s' ↔ ∃ t, step s a = some t ∧ follow step t rest = some s' := by
  simp [follow, Option.bind_eq_some_iff]

/-- A run that comes to a property that did not hold at first has an action that made it hold. -/
theorem follow_crosses {P : S → Prop} {s s' : S} {actions : List A} (hs : ¬ P s)
    (hrun : follow step s actions = some s') (hs' : P s') :
    ∃ before a after t t', actions = before ++ a :: after ∧ follow step s before = some t ∧ ¬ P t ∧
      step t a = some t' ∧ P t' := by
  induction actions generalizing s with
  | nil =>
    cases hrun
    exact absurd hs' hs
  | cons a rest ih =>
    obtain ⟨t, ha, hrest⟩ := follow_cons_eq_some_iff.mp hrun
    by_cases ht : P t
    · exact ⟨[], a, rest, s, t, rfl, rfl, hs, ha, ht⟩
    · obtain ⟨before, b, after, u, u', rfl, hbefore, hu, hb, hu'⟩ := ih ht hrest
      exact ⟨a :: before, b, after, u, u', rfl, follow_cons_eq_some_iff.mpr ⟨t, ha, hbefore⟩, hu, hb, hu'⟩

/-- What each of its actions keeps, a run keeps. -/
theorem follow_invariant {Inv : S → Prop} {s s' : S} {actions : List A}
    (hkeep : ∀ a ∈ actions, ∀ s s', Inv s → step s a = some s' → Inv s') (hs : Inv s)
    (hrun : follow step s actions = some s') : Inv s' := by
  induction actions generalizing s with
  | nil =>
    cases hrun
    exact hs
  | cons a rest ih =>
    obtain ⟨t, ha, hrest⟩ := follow_cons_eq_some_iff.mp hrun
    have ht := hkeep a List.mem_cons_self s t hs ha
    exact ih (fun b hb => hkeep b (List.mem_cons_of_mem a hb)) ht hrest

/-- A bound on the length of all runs, from a measure that every action lowers, up to what the
    action itself is allowed to add. -/
theorem follow_length_le {Inv : S → Prop} {μ : S → Nat} {cost : A → Nat} {s s' : S} {actions : List A}
    (hkeep : ∀ a ∈ actions, ∀ s s', Inv s → step s a = some s' → Inv s')
    (hμ : ∀ s a s', Inv s → step s a = some s' → μ s' + 1 ≤ μ s + cost a) (hs : Inv s)
    (hrun : follow step s actions = some s') : actions.length + μ s' ≤ μ s + (actions.map cost).sum := by
  induction actions generalizing s with
  | nil =>
    cases hrun
    simp only [List.length_nil, List.map_nil, List.sum_nil]
    omega
  | cons a rest ih =>
    obtain ⟨t, ha, hrest⟩ := follow_cons_eq_some_iff.mp hrun
    have ht := hkeep a List.mem_cons_self s t hs ha
    have hrest := ih (fun b hb => hkeep b (List.mem_cons_of_mem a hb)) ht hrest
    have hstep := hμ s a t hs ha
    rw [List.length_cons, List.map_cons, List.sum_cons]
    omega

end Interleave

end tlpi
