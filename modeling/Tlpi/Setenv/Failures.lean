import Tlpi.Setenv.Entries
import Tlpi.Setenv.Table

namespace tlpi.setenv

/-- A call, without its return value. -/
def step (e : Env) (call : Call) : Exec Env := do
  let (e, _) ← exec e call
  return e

/-- The calls that do not leave a new `EnvList` without its null pointer: if one creates it,
    then it gets the memory for the string as well. -/
def KeepsTerminator (e : Env) : Call → Prop
  | .xsetenv (some name) _ _ r =>
    invalid_name name = false → getenv e name = none → e.EnvList = none →
      (list_cells r.list e.EnvListCapacity).isSome = true → r.envvar.isSome = true
  | _ => True

instance (e : Env) (call : Call) : Decidable (KeepsTerminator e call) :=
  match call with
  | .xsetenv (some _) _ _ _ => inferInstanceAs (Decidable (_ → _))
  | .xsetenv none _ _ _ => isTrue trivial
  | .xunsetenv _ => isTrue trivial

/-- The one way in which a call does not return: it follows a null pointer, the one that
    `EnvList` still is or the one that stands for a missing equals sign. -/
def FollowsNull (e : Env) (_ : Call) (fault : Fault) : Prop :=
  fault = .nullPointer ∧ (e.EnvList = none ∨ ∃ p ∈ e.environ, '=' ∉ e.string p)

/-- What every call keeps of `EnvList`. -/
def ListInv (e : Env) : Prop := CapacityOk e ∧ ∃ ptrs, Owned e ptrs

section Failures

variable {e : Env} {ptrs : List Nat} {name value : List Char}

/-- Overwriting an entry returns with the table in order, or leaves the search because the
    entry is not in the table, or follows a null pointer. -/
theorem overwrite_entry_list (r : Replies) (name value : List Char) (ep p : Nat) (h : Owned e ptrs)
    (hcap : CapacityOk e) :
    (∃ e' ret, overwrite_entry e r name value ep p = .ok (.done (e', ret)) ∧ ListInv e') ∨
      (∃ e', overwrite_entry e r name value ep p = .ok (.cont e') ∧ SameList e e' ∧ e.EnvList ≠ none) ∨
      overwrite_entry e r name value ep p = .error .nullPointer ∧
        (e.EnvList = none ∨ '=' ∉ e.string p) := by
  cases hvalue : after_equals (e.string p) with
  | none =>
    refine Or.inr (Or.inr ⟨by simp only [overwrite_entry, hvalue],
      Or.inr (after_equals_eq_none hvalue)⟩)
  | some existing_value =>
    by_cases hshort : value.length < existing_value.length
    · refine Or.inl ⟨e.set_string p ((e.string p).take (name.length + 1) ++ value), 0, ?_, hcap, ptrs, ?_⟩
      · simp only [overwrite_entry, hvalue, if_pos hshort]
      · exact (set_string_sameList e p _).owned h
    · obtain ⟨hnone, _⟩ | ⟨junk, htable⟩ := h
      · refine Or.inr (Or.inr ⟨?_, Or.inl hnone⟩)
        simp only [overwrite_entry, hvalue, if_neg hshort, walk_EnvList, hnone, exec_bind_error]
      · have hwalk := walk_EnvList_spec p htable
        by_cases hp : p ∈ ptrs
        · rw [if_pos hp] at hwalk
          cases hq : r.resize with
          | none =>
            refine Or.inl ⟨{ e with environ := e.environ.take ep, errno := .ENOMEM }, -1, ?_, hcap,
              ptrs, ?_⟩
            · simp only [overwrite_entry, hvalue, if_neg hshort, hwalk, exec_bind_ok, hq, exec_pure]
            · exact ((environ_sameList e (e.environ.take ep)).trans (errno_sameList _ .ENOMEM)).owned
                (Or.inr ⟨junk, htable⟩)
          | some q =>
            obtain ⟨e₁, hrun, htable₁, _, _, hcapacity⟩ :=
              overwrite_entry_resized name ep htable hp hvalue (not_lt.mp hshort) hq
            have hsame := putenv_sameList e₁ r.putenv q
            exact Or.inl ⟨_, 0, hrun, hsame.capacityOk (hcap.of_eq hcapacity), _,
              Or.inr ⟨junk, hsame.table htable₁⟩⟩
        · rw [if_neg hp] at hwalk
          refine Or.inr (Or.inl ⟨(xunsetenv e (some name)).1, ?_, xunsetenv_sameList e (some name), ?_⟩)
          · simp only [overwrite_entry, hvalue, if_neg hshort, hwalk, exec_bind_ok, exec_pure]
          · rw [htable.cells]
            simp

/-- The allocation part keeps the table in order, unless it creates it and then does not get
    the memory for the string. -/
theorem xsetenv_new_list (r : Replies) (name value : List Char) (h : Owned e ptrs) (hcap : CapacityOk e)
    (hkeeps : e.EnvList = none → (list_cells r.list e.EnvListCapacity).isSome = true →
      r.envvar.isSome = true) :
    ∃ e' ret, xsetenv_new e r name value = .ok (e', ret) ∧ ListInv e' := by
  obtain ⟨e', hrun, _, _, hcap', hwhy⟩ | ⟨q, e', hq, hrun, howned, _, _, hcap'⟩ :=
    xsetenv_new_cases r name value h hcap
  · refine ⟨e', -1, hrun, hcap', ?_⟩
    obtain ⟨_, _, howned⟩ | ⟨_, howned⟩ | ⟨hq, hnone, hgranted⟩ | ⟨_, _, hnone⟩ := hwhy
    · exact ⟨ptrs, howned⟩
    · exact ⟨ptrs, howned⟩
    · have := hkeeps hnone hgranted
      rw [hq] at this
      cases this
    · exact ⟨[], Or.inl ⟨hnone, rfl⟩⟩
  · have hsame := putenv_sameList e' r.putenv q
    exact ⟨_, _, hrun, hsame.capacityOk hcap', _, hsame.owned howned⟩

theorem xsetenv_list (r : Replies) (name : Option (List Char)) (value : List Char) (overwrite : Int)
    (h : ListInv e) (hkeeps : KeepsTerminator e (.xsetenv name value overwrite r)) :
    (∃ e' ret, xsetenv e r name value overwrite = .ok (e', ret) ∧ ListInv e') ∨
      xsetenv e r name value overwrite = .error .nullPointer ∧
        (e.EnvList = none ∨ ∃ p ∈ e.environ, '=' ∉ e.string p) := by
  obtain ⟨hcap, ptrs, howned⟩ := h
  have herrno : ListInv { e with errno := .EINVAL } :=
    ⟨hcap, ptrs, (errno_sameList e .EINVAL).owned howned⟩
  cases name with
  | none => exact Or.inl ⟨_, -1, rfl, herrno⟩
  | some name =>
    cases hinvalid : invalid_name name with
    | true => exact Or.inl ⟨{ e with errno := .EINVAL }, -1, by simp [xsetenv, hinvalid], herrno⟩
    | false =>
      cases hget : getenv e name with
      | none =>
        obtain ⟨e', ret, hrun, hinv⟩ := xsetenv_new_list r name value howned hcap (hkeeps hinvalid hget)
        exact Or.inl ⟨e', ret, by simp [xsetenv, hinvalid, hget, hrun], hinv⟩
      | some v =>
        by_cases hover : overwrite = 0
        · exact Or.inl ⟨e, 0, by simp [xsetenv, hinvalid, hget, hover], hcap, ptrs, howned⟩
        · obtain ⟨ep, hfind⟩ := findIdx_isSome_of_getenv hget
          obtain ⟨front, p, back, hsplit, _, hstarts, hbefore⟩ := exists_of_findIdx hfind
          rw [xsetenv_at_first hsplit hstarts hbefore hinvalid (by rw [hget]; rfl) hover]
          obtain ⟨e', ret, hrun, hinv⟩ | ⟨e₁, hrun, hsame, hsome⟩ | ⟨hrun, hwhy⟩ :=
            overwrite_entry_list r name value front.length p howned hcap
          · exact Or.inl ⟨e', ret, by simp [hrun], hinv⟩
          · -- the entry is foreign, so `EnvList` exists and a failure leaves it as it is
            have hthere : e₁.EnvList ≠ none := by rwa [hsame.list]
            obtain ⟨e', ret, hnew, hinv⟩ :=
              xsetenv_new_list r name value (hsame.owned howned) (hsame.capacityOk hcap)
              (fun hnone => absurd hnone hthere)
            exact Or.inl ⟨e', ret, by simp [hrun, hnew], hinv⟩
          · refine Or.inr ⟨by simp [hrun], ?_⟩
            exact hwhy.imp_right fun hno => ⟨p, by simp [hsplit], hno⟩

theorem step_list (call : Call) (h : ListInv e) (hkeeps : KeepsTerminator e call) :
    (∃ e', step e call = .ok e' ∧ ListInv e') ∨
      ∃ fault, step e call = .error fault ∧ FollowsNull e call fault := by
  cases call with
  | xsetenv name value overwrite r =>
    obtain ⟨e', ret, hrun, hinv⟩ | ⟨hrun, hwhy⟩ := xsetenv_list r name value overwrite h hkeeps
    · exact Or.inl ⟨e', by simp [step, exec, hrun], hinv⟩
    · exact Or.inr ⟨.nullPointer, by simp [step, exec, hrun], rfl, hwhy⟩
  | xunsetenv name =>
    obtain ⟨hcap, ptrs, howned⟩ := h
    have hsame := xunsetenv_sameList e name
    exact Or.inl ⟨(xunsetenv e name).1, rfl, hsame.capacityOk hcap, ptrs, hsame.owned howned⟩

/-- In every run in which no call creates `EnvList` and then fails to get the memory for the
    string, `EnvList` is in order after every call, whatever else fails, and no call reads
    an uninitialized cell or accesses the array outside its bounds. -/
theorem runs_keep_EnvList (e : Env) (calls : List Call) (hnone : e.EnvList = none)
    (hcapacity : e.EnvListCapacity = 1024) (hkeeps : Along step KeepsTerminator e calls) :
    Throughout step ListOk FollowsNull e calls := by
  have hinv : ListInv e := by
    refine ⟨?_, [], Or.inl ⟨hnone, rfl⟩⟩
    unfold CapacityOk
    rw [hcapacity]
    decide
  refine Throughout.of_invariant (fun _ call => step_list call) (fun _ h => ?_) hinv hkeeps
  obtain ⟨_, ptrs, howned⟩ := h
  exact howned.listOk

end Failures

/-- An empty environment before the first call. -/
def emptyEnv : Env where
  string := fun _ => []
  environ := []
  EnvList := none
  NextEnvVar := 0
  EnvListCapacity := 1024
  errno := .other 0

/-- A variable is set, set again to a longer value, and unset, with failures in between. -/
def failingCalls : List Call :=
  [.xsetenv (some ['A']) ['1'] 0 ⟨false, true, none, none, true⟩,
    .xsetenv (some ['A']) ['1'] 0 ⟨true, true, some 1, none, true⟩,
    .xsetenv (some ['B']) ['2'] 0 ⟨true, true, none, none, true⟩,
    .xsetenv (some ['A']) ['1', '2'] 1 ⟨true, true, none, some 2, true⟩,
    .xsetenv (some ['A']) ['1', '2', '3'] 1 ⟨true, true, none, none, true⟩,
    .xsetenv (some ['B']) ['2'] 0 ⟨true, true, some 3, none, false⟩,
    .xunsetenv (some ['A'])]

theorem failingCalls_keep_EnvList : Throughout step ListOk FollowsNull emptyEnv failingCalls :=
  runs_keep_EnvList emptyEnv failingCalls rfl rfl (by decide +kernel)

/-- The array is created, the string is not: the first cell has never been written. -/
def halfCreated : List Call := [.xsetenv (some ['A']) [] 0 ⟨true, true, none, none, true⟩]

theorem halfCreated_uninitialized :
    emptyEnv.EnvList = none ∧ ¬ Throughout step ListOk (fun _ _ _ => True) emptyEnv halfCreated := by
  refine ⟨rfl, fun h => ?_⟩
  have hcell :
      (run step emptyEnv halfCreated).toOption.map (fun e => (e.EnvList.map (·[0]?), e.NextEnvVar)) =
        some (some (some .uninit), 0) := by decide +kernel
  cases hrun : run step emptyEnv halfCreated with
  | error fault =>
    rw [hrun] at hcell
    cases hcell
  | ok e =>
    rw [hrun] at hcell
    simp only [Except.toOption, Option.map_some, Option.some.injEq, Prod.mk.injEq] at hcell
    obtain ⟨hfirst, hnext⟩ := hcell
    obtain hnone | ⟨cells, hcells, _, _, _, hlast⟩ := h.of_run_ok hrun
    · rw [hnone] at hfirst
      cases hfirst
    · rw [hcells, Option.map_some, Option.some.injEq] at hfirst
      rw [hnext, hfirst] at hlast
      cases hlast

end tlpi.setenv
