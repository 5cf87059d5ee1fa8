import Tlpi.Lib.Exec

namespace tlpi

section Run

variable {C E : Type} (step : C → E → Exec C)

/-- One event after the other, up to the first fault. -/
def run : C → List E → Exec C
  | c, [] => .ok c
  | c, e :: rest => do
    let c ← step c e
    run c rest

/-- Every event of the run happens in a state that allows it. A fault ends the run. -/
def Along (P : C → E → Prop) : C → List E → Prop
  | _, [] => True
  | c, e :: rest =>
    P c e ∧
      match step c e with
      | .ok c' => Along P c' rest
      | .error _ => True

/-- The property holds at the start and after each event that returns, and an event ends in
    a fault only where that is allowed for. -/
def Throughout (Q : C → Prop) (F : C → E → Fault → Prop) : C → List E → Prop
  | c, [] => Q c
  | c, e :: rest =>
    Q c ∧
      match step c e with
      | .ok c' => Throughout Q F c' rest
      | .error fault => F c e fault

/-- No event of the run ends in a fault, and the property holds at the start and after each
    event. -/
def Always (Q : C → Prop) (c : C) (events : List E) : Prop :=
  Throughout step Q (fun _ _ _ => False) c events

/-- Up to the first event of one kind, every event happens in a state that allows it. -/
def Before (Q P : C → E → Prop) : C → List E → Prop
  | _, [] => True
  | c, e :: rest =>
    Q c e ∨ P c e ∧
      match step c e with
      | .ok c' => Before Q P c' rest
      | .error _ => True

instance Along.decidable (P : C → E → Prop) [∀ c e, Decidable (P c e)] :
    (c : C) → (events : List E) → Decidable (Along step P c events)
  | _, [] => isTrue trivial
  | c, e :: rest =>
    haveI : Decidable (match step c e with
        | .ok c' => Along step P c' rest
        | .error _ => True) :=
      match step c e with
      | .ok c' => Along.decidable P c' rest
      | .error _ => isTrue trivial
    inferInstanceAs (Decidable (_ ∧ _))

variable {step}

/-- What an invariant gives for whole runs: if each allowed event keeps it, or ends in a
    fault that is allowed for, then whatever follows from it holds all along. -/
theorem Throughout.of_invariant {P : C → E → Prop} {Inv Q : C → Prop} {F : C → E → Fault → Prop}
    (hstep : ∀ c e, Inv c → P c e →
      (∃ c', step c e = .ok c' ∧ Inv c') ∨ ∃ fault, step c e = .error fault ∧ F c e fault)
    (hinv : ∀ c, Inv c → Q c) {c : C} {events : List E} (hc : Inv c) (hevents : Along step P c events) :
    Throughout step Q F c events := by
  induction events generalizing c with
  | nil => exact hinv c hc
  | cons e rest ih =>
    obtain ⟨hallowed, hrest⟩ := hevents
    refine ⟨hinv c hc, ?_⟩
    obtain ⟨c', hexec, hc'⟩ | ⟨fault, hexec, hfault⟩ := hstep c e hc hallowed
    · rw [hexec] at hrest ⊢
      exact ih hc' hrest
    · rw [hexec]
      exact hfault

/-- The same for events that never end in a fault. -/
theorem Always.of_invariant {P : C → E → Prop} {Inv Q : C → Prop}
    (hstep : ∀ c e, Inv c → P c e → ∃ c', step c e = .ok c' ∧ Inv c') (hinv : ∀ c, Inv c → Q c)
    {c : C} {events : List E} (hc : Inv c) (hevents : Along step P c events) : Always step Q c events :=
  Throughout.of_invariant (fun c e h h' => Or.inl (hstep c e h h')) hinv hc hevents

/-- What every state allows is allowed all along. -/
theorem Along.of_forall {P : C → E → Prop} (c : C) {events : List E} (h : ∀ e ∈ events, ∀ c, P c e) :
    Along step P c events := by
  induction events generalizing c with
  | nil => trivial
  | cons e rest ih =>
    refine ⟨h e List.mem_cons_self c, ?_⟩
    cases hexec : step c e with
    | ok c' => exact ih c' fun e' he' => h e' (List.mem_cons_of_mem e he')
    | error fault => trivial

/-- What holds along a run holds for each event in the state that the run has reached before it. -/
theorem Along.of_run_ok {P : C → E → Prop} {c c' : C} {before after : List E} {e : E}
    (h : Along step P c (before ++ e :: after)) (hrun : run step c before = .ok c') : P c' e := by
  induction before generalizing c with
  | nil =>
    cases hrun
    exact h.1
  | cons first rest ih =>
    obtain ⟨c₁, hexec, hrest⟩ := exec_bind_eq_ok_iff.mp hrun
    obtain ⟨_, h⟩ := h
    rw [hexec] at h
    exact ih h hrest

theorem Along.and {P P' : C → E → Prop} {c : C} {events : List E} (h : Along step P c events)
    (h' : Along step P' c events) : Along step (fun c e => P c e ∧ P' c e) c events := by
  induction events generalizing c with
  | nil => trivial
  | cons e rest ih =>
    refine ⟨⟨h.1, h'.1⟩, ?_⟩
    obtain ⟨_, hrest⟩ := h
    obtain ⟨_, hrest'⟩ := h'
    cases hexec : step c e with
    | ok c' =>
      rw [hexec] at hrest hrest'
      exact ih hrest hrest'
    | error fault => trivial

/-- Two properties that agree wherever an invariant holds agree along a run that keeps it. -/
theorem Along.iff_of_invariant {G P P' : C → E → Prop} {Inv : C → Prop}
    (hiff : ∀ c e, Inv c → G c e → (P c e ↔ P' c e))
    (hkeep : ∀ c e c', Inv c → G c e → step c e = .ok c' → Inv c') {c : C} {events : List E} (hc : Inv c)
    (h : Along step G c events) : Along step P c events ↔ Along step P' c events := by
  induction events generalizing c with
  | nil => exact Iff.rfl
  | cons e rest ih =>
    obtain ⟨hgiven, hrest⟩ := h
    rw [Along, Along, hiff c e hc hgiven]
    refine and_congr_right fun _ => ?_
    cases hexec : step c e with
    | ok c' =>
      rw [hexec] at hrest
      exact ih (hkeep c e c' hc hgiven hexec) hrest
    | error fault => exact Iff.rfl

/-- What holds whenever an invariant does holds along a run that keeps the invariant. -/
theorem Along.of_invariant {G P : C → E → Prop} {Inv : C → Prop} (hinv : ∀ c e, Inv c → G c e → P c e)
    (hkeep : ∀ c e c', Inv c → G c e → step c e = .ok c' → Inv c') {c : C} {events : List E} (hc : Inv c)
    (h : Along step G c events) : Along step P c events := by
  induction events generalizing c with
  | nil => trivial
  | cons e rest ih =>
    obtain ⟨hallowed, hrest⟩ := h
    refine ⟨hinv c e hc hallowed, ?_⟩
    cases hexec : step c e with
    | ok c' =>
      rw [hexec] at hrest
      exact ih (hkeep c e c' hc hallowed hexec) hrest
    | error fault => trivial

/-- Two phases of a run, of which the second begins with the first event of one kind and has
    nothing to fear: what remains to be checked is the first phase. -/
theorem Along.iff_before {G P P' Q : C → E → Prop} (First Second : C → Prop)
    (hfirst : ∀ c e, First c → (P c e ↔ P' c e)) (hsecond : ∀ c e, Second c → P c e)
    (hstay : ∀ c e c', First c → G c e → ¬Q c e → P' c e → step c e = .ok c' → First c')
    (hallowed : ∀ c e, First c → Q c e → P c e)
    (hturn : ∀ c e c', First c → G c e → Q c e → step c e = .ok c' → Second c')
    (hkeep : ∀ c e c', Second c → G c e → step c e = .ok c' → Second c') {c : C} {events : List E}
    (hc : First c) (h : Along step G c events) : Along step P c events ↔ Before step Q P' c events := by
  induction events generalizing c with
  | nil => exact iff_of_true trivial trivial
  | cons e rest ih =>
    obtain ⟨hgiven, hrest⟩ := h
    by_cases hq : Q c e
    · refine iff_of_true ⟨hallowed c e hc hq, ?_⟩ (Or.inl hq)
      cases hexec : step c e with
      | ok c' =>
        rw [hexec] at hrest
        exact Along.of_invariant (fun c e hc _ => hsecond c e hc) hkeep (hturn c e c' hc hgiven hq hexec) hrest
      | error fault => trivial
    · rw [Along, Before, or_iff_right hq, hfirst c e hc]
      refine and_congr_right fun hp => ?_
      cases hexec : step c e with
      | ok c' =>
        rw [hexec] at hrest
        exact ih (hstay c e c' hc hgiven hq hp hexec) hrest
      | error fault => exact Iff.rfl

/-- The property holds where the run ends. -/
theorem Throughout.of_run_ok {Q : C → Prop} {F : C → E → Fault → Prop} {c c' : C} {events : List E}
    (h : Throughout step Q F c events) (hrun : run step c events = .ok c') : Q c' := by
  induction events generalizing c with
  | nil =>
    cases hrun
    exact h
  | cons e rest ih =>
    obtain ⟨c₁, hexec, hrest⟩ := exec_bind_eq_ok_iff.mp hrun
    obtain ⟨_, h⟩ := h
    rw [hexec] at h
    exact ih h hrest

theorem Always.run_ok {Q : C → Prop} {c : C} {events : List E} (h : Always step Q c events) :
    ∃ c', run step c events = .ok c' ∧ Q c' := by
  induction events generalizing c with
  | nil => exact ⟨c, rfl, h⟩
  | cons e rest ih =>
    obtain ⟨_, hrest⟩ := h
    cases hexec : step c e with
    | ok c₁ =>
      rw [hexec] at hrest
      rw [run, hexec, exec_bind_ok]
      exact ih hrest
    | error fault =>
      rw [hexec] at hrest
      exact hrest.elim

end Run

end tlpi
