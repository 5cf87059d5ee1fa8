import Mathlib.Data.List.Basic

namespace tlpi

/-- The ways in which a C function can end without returning: a loop that never
    leaves, a failed `assert`, a dereferenced null pointer, an access outside an array,
    and a use of memory that was never written. -/
inductive Fault where
  | diverges
  | assertion
  | nullPointer
  | outOfBounds
  | uninitialized
deriving DecidableEq, Repr

abbrev Exec := Except Fault

/-- What one iteration of a loop body decides: go round again, or leave. -/
inductive Flow (S R : Type) where
  | cont (state : S)
  | done (result : R)

/-- A C loop. The fuel bounds the number of iterations, and running out of it is
    reported as divergence. -/
def loop {S R : Type} (body : S → Exec (Flow S R)) : Nat → S → Exec R
  | 0, _ => .error .diverges
  | fuel + 1, state =>
    match body state with
    | .ok (.cont next) => loop body fuel next
    | .ok (.done result) => .ok result
    | .error fault => .error fault

/-- `assert(condition)`. -/
def c_assert (condition : Bool) : Exec Unit :=
  if condition then .ok () else .error .assertion

@[simp] theorem exec_bind_ok {A B : Type} (a : A) (f : A → Exec B) :
    ((Except.ok a : Exec A) >>= f) = f a := rfl

@[simp] theorem exec_bind_error {A B : Type} (fault : Fault) (f : A → Exec B) :
    ((Except.error fault : Exec A) >>= f) = Except.error fault := rfl

@[simp] theorem exec_pure {A : Type} (a : A) : (pure a : Exec A) = Except.ok a := rfl

theorem exec_bind_eq_ok_iff {A B : Type} {x : Exec A} {f : A → Exec B} {y : B} :
    (x >>= f) = .ok y ↔ ∃ a, x = .ok a ∧ f a = .ok y := by
  cases x <;> simp

@[simp] theorem c_assert_true : c_assert true = .ok () := rfl

/-- Results that each index has, in a list. -/
theorem mapM_range_ok {B : Type} {f : Nat → Exec B} {P : Nat → B → Prop} {n : Nat}
    (h : ∀ i < n, ∃ b, f i = .ok b ∧ P i b) :
    ∃ bs, (List.range n).mapM f = .ok bs ∧ bs.length = n ∧ ∀ i b, bs[i]? = some b → P i b := by
  induction n with
  | zero => exact ⟨[], rfl, rfl, fun i b hi => by cases hi⟩
  | succ n ih =>
    obtain ⟨bs, hmap, hlength, hall⟩ := ih fun i hi => h i (Nat.lt_succ_of_lt hi)
    obtain ⟨b, hb, hlast⟩ := h n (Nat.lt_succ_self n)
    refine ⟨bs ++ [b], ?_, by rw [List.length_append, hlength, List.length_singleton], fun i c hi => ?_⟩
    · rw [List.range_succ, List.mapM_append, hmap, exec_bind_ok, List.mapM_cons, hb]
      rfl
    · rw [List.getElem?_append] at hi
      split at hi
      · exact hall i c hi
      · rename_i hnot
        obtain ⟨hlt, rfl⟩ := List.getElem?_eq_some_iff.mp hi
        rw [List.length_singleton] at hlt
        obtain rfl : i = n := by omega
        simpa using hlast

/-- The results of a list, one by one. -/
theorem getElem_of_mapM_ok {A B : Type} {f : A → Exec B} {l : List A} {bs : List B} (h : l.mapM f = .ok bs) :
    bs.length = l.length ∧
      ∀ (i : Nat) (a : A), l[i]? = some a → ∃ b, bs[i]? = some b ∧ f a = .ok b := by
  induction l generalizing bs with
  | nil =>
    cases h
    exact ⟨rfl, fun i a hi => by cases hi⟩
  | cons a l ih =>
    rw [List.mapM_cons] at h
    obtain ⟨b, hfirst, h⟩ := exec_bind_eq_ok_iff.mp h
    obtain ⟨bs', hrest, h⟩ := exec_bind_eq_ok_iff.mp h
    cases h
    obtain ⟨hlength, hall⟩ := ih hrest
    refine ⟨by rw [List.length_cons, List.length_cons, hlength], fun i c hi => ?_⟩
    cases i with
    | zero =>
      cases hi
      exact ⟨b, rfl, hfirst⟩
    | succ i => exact hall i c hi

/-- Where a result of a list comes from. -/
theorem mem_of_mapM_ok {A B : Type} {f : A → Exec B} {l : List A} {bs : List B} {b : B}
    (h : l.mapM f = .ok bs) (hb : b ∈ bs) : ∃ a ∈ l, f a = .ok b := by
  obtain ⟨hlength, hall⟩ := getElem_of_mapM_ok h
  obtain ⟨i, hi⟩ := List.getElem?_of_mem hb
  have hlt : i < l.length := by
    rw [← hlength]
    exact (List.getElem?_eq_some_iff.mp hi).1
  obtain ⟨b', hb', hf⟩ := hall i l[i] (List.getElem?_eq_getElem hlt)
  obtain rfl : b = b' := Option.some.inj (hi.symm.trans hb')
  exact ⟨l[i], List.getElem_mem hlt, hf⟩

section Loop

variable {S R : Type} {body : S → Exec (Flow S R)}

theorem loop_cont {fuel : Nat} {state next : S} (hbody : body state = .ok (.cont next)) :
    loop body (fuel + 1) state = loop body fuel next := by
  simp [loop, hbody]

theorem loop_done {fuel : Nat} {state : S} {result : R} (hbody : body state = .ok (.done result)) :
    loop body (fuel + 1) state = .ok result := by
  simp [loop, hbody]

theorem loop_error {fuel : Nat} {state : S} {fault : Fault} (hbody : body state = .error fault) :
    loop body (fuel + 1) state = .error fault := by
  simp [loop, hbody]

/-- A loop that walks along a list and leaves it at a cut: it goes on at every element
    before the cut, and is done there. -/
theorem loop_list {A : Type} (pos : List A → List A → S) (front back : List A) {result : R}
    (hstep : ∀ done a rest, front = done ++ a :: rest →
      body (pos done (a :: rest ++ back)) = .ok (.cont (pos (done ++ [a]) (rest ++ back))))
    (hend : body (pos front back) = .ok (.done result)) {fuel : Nat} (hfuel : front.length < fuel) :
    loop body fuel (pos [] (front ++ back)) = .ok result := by
  have hfrom (done rest : List A) (hsplit : front = done ++ rest) (fuel : Nat)
    (hfuel : rest.length < fuel) :
      loop body fuel (pos done (rest ++ back)) = .ok result := by
    induction rest generalizing done fuel with
    | nil =>
      obtain ⟨fuel, rfl⟩ : ∃ n, fuel = n + 1 := ⟨fuel - 1, by simp at hfuel; omega⟩
      simp only [List.append_nil] at hsplit
      subst hsplit
      exact loop_done hend
    | cons a rest ih =>
      obtain ⟨fuel, rfl⟩ : ∃ n, fuel = n + 1 := ⟨fuel - 1, by simp at hfuel; omega⟩
      rw [loop_cont (hstep done a rest hsplit)]
      exact ih (done ++ [a]) (by simpa using hsplit) fuel (by simpa using hfuel)
  exact hfrom [] front rfl fuel hfuel

/-- What holds of the result of a loop, from an invariant of its iterations. -/
theorem loop_ok_of_invariant (Inv : S → Prop) (Post : R → Prop)
    (hcont : ∀ state next, Inv state → body state = .ok (.cont next) → Inv next)
    (hdone : ∀ state result, Inv state → body state = .ok (.done result) → Post result)
    {fuel : Nat} {state : S} {result : R} (h : Inv state) (hrun : loop body fuel state = .ok result) :
    Post result := by
  induction fuel generalizing state with
  | zero => cases hrun
  | succ fuel ih =>
    rw [loop] at hrun
    split at hrun
    · rename_i next hbody
      exact ih (hcont state next h hbody) hrun
    · rename_i last hbody
      cases hrun
      exact hdone state result h hbody
    · cases hrun

end Loop

end tlpi
