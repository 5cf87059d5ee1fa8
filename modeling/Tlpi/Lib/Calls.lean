import Tlpi.Lib.Exec

namespace tlpi

section Calls

variable {S A R X : Type}

/-- One call after the other, and what each of them returns. -/
def calls (call : S → A → Exec (S × R)) : S → List A → Exec (S × List R)
  | s, [] => .ok (s, [])
  | s, a :: rest => do
    let r ← call s a
    let rs ← calls call r.1 rest
    pure (rs.1, r.2 :: rs.2)

theorem calls_map {B : Type} (call : S → A → Exec (S × R)) (f : B → A) (s : S) (inputs : List B) :
    calls call s (inputs.map f) = calls (fun s b => call s (f b)) s inputs := by
  induction inputs generalizing s with
  | nil => rfl
  | cons b rest ih =>
    rw [List.map_cons, calls, calls]
    simp only [ih]

/-- What the calls are to return, and where they are to end, in terms of a simpler state. -/
def answers (spec : X → A → X × R) : X → List A → X × List R
  | x, [] => (x, [])
  | x, a :: rest => ((answers spec (spec x a).1 rest).1, (spec x a).2 :: (answers spec (spec x a).1 rest).2)

/-- Calls that do one by one what they are to do, do so one after the other. -/
theorem calls_refine {call : S → A → Exec (S × R)} {spec : X → A → X × R} {Rel : S → X → Prop} {P : A → Prop}
    (hcall : ∀ s x a, Rel s x → P a → ∃ s', call s a = .ok (s', (spec x a).2) ∧ Rel s' (spec x a).1)
    {s : S} {x : X} {inputs : List A} (hs : Rel s x) (hinputs : ∀ a ∈ inputs, P a) :
    ∃ s', calls call s inputs = .ok (s', (answers spec x inputs).2) ∧ Rel s' (answers spec x inputs).1 := by
  induction inputs generalizing s x with
  | nil => exact ⟨s, rfl, hs⟩
  | cons a rest ih =>
    obtain ⟨s₁, hfirst, hs₁⟩ := hcall s x a hs (hinputs a List.mem_cons_self)
    obtain ⟨s', hrest, hs'⟩ := ih hs₁ fun b hb => hinputs b (List.mem_cons_of_mem a hb)
    refine ⟨s', ?_, hs'⟩
    rw [calls, hfirst, exec_bind_ok, hrest, exec_bind_ok]
    rfl

end Calls

end tlpi
