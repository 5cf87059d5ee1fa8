import Tlpi.Setenv.Walk

namespace tlpi.setenv

/-- A call that returns -1 leaves every variable as it was. -/
def FailsUnseen (e : Env) (call : Call) : Prop :=
  ∀ e', exec e call = .ok (e', -1) → ∀ m, getenv e' m = getenv e m

/-- `malloc` gives memory that is not in use. -/
def FreshMemory (e : Env) : Call → Prop
  | .xsetenv _ _ _ r => ∀ q ∈ r.envvar, q ∉ e.environ
  | .xunsetenv _ => True

/-- What a walk along `EnvList` makes the call ask for, given its result, is granted: `realloc` of
    a string of the table, and `malloc`, the growth of the table and `putenv` for a foreign one. -/
def GrantedAfter (e : Env) (r : Replies) : Exec (Option Nat) → Prop
  | .ok (some _) => r.resize.isSome = true
  | .ok none =>
    r.envvar.isSome = true ∧
      (e.NextEnvVar = size_sub e.EnvListCapacity 1 →
        (list_cells r.grow (e.EnvListCapacity * 2 % 2 ^ 64)).isSome = true) ∧
      r.putenv = true
  | .error _ => True

/-- A call that walks `EnvList` cuts off or unsets the entry's old string before it has the memory
    for the new one, and so has to get it. -/
def ReplacementGranted (e : Env) : Call → Prop
  | .xsetenv name value overwrite r =>
    ∀ p ∈ walk_target e (.xsetenv name value overwrite r), GrantedAfter e r (walk_EnvList e p)
  | .xunsetenv _ => True

instance (e : Env) (call : Call) : Decidable (FreshMemory e call) :=
  match call with
  | .xsetenv _ _ _ r => inferInstanceAs (Decidable (∀ q ∈ r.envvar, _))
  | .xunsetenv _ => isTrue trivial

instance (e : Env) (r : Replies) (walk : Exec (Option Nat)) : Decidable (GrantedAfter e r walk) :=
  match walk with
  | .ok (some _) => inferInstanceAs (Decidable (_ = _))
  | .ok none => inferInstanceAs (Decidable (_ ∧ _))
  | .error _ => isTrue trivial

instance (e : Env) (call : Call) : Decidable (ReplacementGranted e call) :=
  match call with
  | .xsetenv name value overwrite r =>
    inferInstanceAs (Decidable (∀ p ∈ walk_target e (.xsetenv name value overwrite r), _))
  | .xunsetenv _ => isTrue trivial

section Atomic

variable {e e' : Env} {r : Replies} {name value : List Char} {p : Nat} {ret : Int} {call : Call}

/-- `getenv` reads the strings of the environment and nothing else. -/
theorem getenv_congr (henviron : e'.environ = e.environ)
    (hstring : ∀ x ∈ e.environ, e'.string x = e.string x) (m : List Char) : getenv e' m = getenv e m := by
  rw [getenv_eq_lookup, getenv_eq_lookup, view, view, henviron, List.map_congr_left hstring]

theorem putenv_fails {granted : Bool} (h : putenv e granted p = (e', -1)) :
    granted = false ∧ e' = { e with errno := .ENOMEM } := by
  unfold putenv at h
  dsimp only at h
  split at h
  · rename_i hrefused
    cases h
    exact ⟨hrefused, rfl⟩
  · split at h
    · split at h <;> cases h
    · cases h

/-- Where the allocation part fails, nothing in the environment has changed: the new string is
    not yet in it. -/
theorem xsetenv_new_fails (h : xsetenv_new e r name value = .ok (e', -1))
    (hfresh : ∀ q ∈ r.envvar, q ∉ e.environ) :
    e'.environ = e.environ ∧ ∀ x ∈ e.environ, e'.string x = e.string x := by
  obtain ⟨_, rfl, _⟩ | ⟨e₁, hcreate, hrest⟩ := xsetenv_new_outcomes h
  · exact ⟨rfl, fun _ _ => rfl⟩
  · obtain ⟨henviron₁, hstring₁, _⟩ := create_list_fields hcreate
    obtain ⟨henviron₂, hstring₂⟩ := grow_list_fields e₁ r
    obtain ⟨_, rfl, _⟩ | ⟨q, hq, ⟨_, rfl, _⟩ | ⟨_, e₂, hadd, hput⟩⟩ := hrest
    · exact ⟨henviron₁, fun x _ => by simp only [hstring₁]⟩
    · exact ⟨henviron₂.trans henviron₁, fun x _ => by simp only [hstring₂, hstring₁]⟩
    · obtain ⟨_, rfl⟩ := putenv_fails hput
      obtain ⟨henviron₃, hstring₃, _⟩ := add_envvar_fields hadd
      refine ⟨henviron₃.trans (henviron₂.trans henviron₁), fun x hx => ?_⟩
      have hne : x ≠ q := ne_of_mem_of_not_mem hx (hfresh q hq)
      simp only [hstring₃, Function.update_of_ne hne, hstring₂, hstring₁]

/-- The allocation part does not fail if it is given all that it asks for. -/
theorem xsetenv_new_succeeds (h : xsetenv_new e r name value = .ok (e', ret)) (hlist : e.EnvList ≠ none)
    (henvvar : r.envvar.isSome = true)
    (hgrow : e.NextEnvVar = size_sub e.EnvListCapacity 1 →
      (list_cells r.grow (e.EnvListCapacity * 2 % 2 ^ 64)).isSome = true) (hputenv : r.putenv = true) :
    ret ≠ -1 := by
  rintro rfl
  have hcreate : create_list e r = some e := by
    obtain ⟨cells, hcells⟩ := Option.ne_none_iff_exists'.mp hlist
    simp [create_list, hcells]
  obtain ⟨hnone, _⟩ | ⟨e₁, hsome, hrest⟩ := xsetenv_new_outcomes h
  · rw [hcreate] at hnone
    cases hnone
  · obtain rfl : e = e₁ := Option.some.inj (hcreate.symm.trans hsome)
    obtain ⟨hnone, _⟩ | ⟨q, _, ⟨hrefused, _⟩ | ⟨_, e₂, _, hput⟩⟩ := hrest
    · rw [hnone] at henvvar
      cases henvvar
    · rw [(grow_list_granted hlist hgrow).1] at hrefused
      cases hrefused
    · rw [(putenv_fails hput).1] at hputenv
      cases hputenv

theorem walk_EnvList_allocated {np : Option Nat} (h : walk_EnvList e p = .ok np) : e.EnvList ≠ none := by
  intro hnone
  simp only [walk_EnvList, hnone] at h
  cases h

/-- A call that returns -1 has changed nothing that can be seen, if it has not begun to replace
    an entry. -/
theorem failsUnseen_of_granted (hfresh : FreshMemory e call) (hgranted : ReplacementGranted e call) :
    FailsUnseen e call := by
  intro e' hexec
  cases call with
  | xunsetenv name =>
    have hrun : xunsetenv e name = (e', -1) := Except.ok.inj hexec
    unfold xunsetenv at hrun
    cases name with
    | none =>
      cases hrun
      exact fun _ => rfl
    | some name =>
      dsimp only at hrun
      split at hrun <;> cases hrun
      exact fun _ => rfl
  | xsetenv name value overwrite r =>
    have hrun : xsetenv e r name value overwrite = .ok (e', -1) := hexec
    cases htarget : walk_target e (.xsetenv name value overwrite r) with
    | none =>
      obtain ⟨n, rfl, _, _, hnew⟩ | ⟨_, hkeeps⟩ := xsetenv_no_walk htarget hrun
      · obtain ⟨henviron, hstring⟩ := xsetenv_new_fails hnew hfresh
        exact getenv_congr henviron hstring
      · obtain ⟨henviron, hstring⟩ := hkeeps rfl
        exact getenv_congr henviron fun x _ => by rw [hstring]
    | some p =>
      exfalso
      have hwalk := hgranted p htarget
      cases name with
      | none => cases htarget
      | some name =>
        obtain ⟨hover, front, back, v, hat⟩ := walksAt_of_target htarget
        obtain ⟨np, hfound, ⟨hnone, _⟩ | ⟨_, _, hzero⟩⟩ | ⟨hforeign, hnew⟩ := hat.outcomes hover hrun
        · rw [hfound, GrantedAfter, hnone] at hwalk
          cases hwalk
        · cases hzero
        · rw [hforeign] at hwalk
          obtain ⟨henvvar, hgrow, hputenv⟩ := hwalk
          have hsame := xunsetenv_sameList e (some name)
          refine xsetenv_new_succeeds hnew ?_ henvvar ?_ hputenv rfl
          · rw [hsame.list]
            exact walk_EnvList_allocated hforeign
          · rw [hsame.next, hsame.capacity]
            exact hgrow

/-- An allocation part that does not fail was given all that it asked for. -/
theorem xsetenv_new_granted (h : xsetenv_new e r name value = .ok (e', ret)) (hlist : e.EnvList ≠ none)
    (hret : ret ≠ -1) :
    r.envvar.isSome = true ∧
      (e.NextEnvVar = size_sub e.EnvListCapacity 1 →
        (list_cells r.grow (e.EnvListCapacity * 2 % 2 ^ 64)).isSome = true) ∧
      r.putenv = true := by
  obtain ⟨_, _, hfails⟩ | ⟨e₁, hcreate, ⟨_, _, hfails⟩ | ⟨q, hq, hgrown⟩⟩ := xsetenv_new_outcomes h
  · exact absurd hfails hret
  · exact absurd hfails hret
  · obtain rfl := (create_list_fields hcreate).2.2.2.2.1 hlist
    obtain ⟨_, _, hfails⟩ | ⟨hgrow, e₂, _, hput⟩ := hgrown
    · exact absurd hfails hret
    · refine ⟨by rw [hq]; rfl, fun hfull => ?_, ?_⟩
      · cases hcells : list_cells r.grow (e₁.EnvListCapacity * 2 % 2 ^ 64) with
        | some n => rfl
        | none =>
          simp only [grow_list, if_pos hfull, hcells] at hgrow
          cases hgrow
      · cases hgranted : r.putenv with
        | true => rfl
        | false =>
          rw [hgranted] at hput
          cases hput
          exact absurd rfl hret

theorem xsetenv_new_returns {ptrs : List Nat} (h : Owned e ptrs) (hcap : CapacityOk e) (r : Replies)
    (name value : List Char) : ∃ e' ret, xsetenv_new e r name value = .ok (e', ret) := by
  obtain ⟨e', hrun, _⟩ | ⟨q, e', _, hrun, _⟩ := xsetenv_new_cases r name value h hcap
  · exact ⟨e', -1, hrun⟩
  · exact ⟨_, _, hrun⟩

theorem xunsetenv_environ (e : Env) (name : List Char) :
    (xunsetenv e (some name)).1.environ = e.environ := by
  unfold xunsetenv
  dsimp only
  split
  · rfl
  · exact (blank_all_fields name e.environ e).2

/-- No variable of the name is left once it has been unset. -/
theorem getenv_xunsetenv (hname : invalid_name name = false) :
    getenv (xunsetenv e (some name)).1 name = none := by
  obtain ⟨_, hview⟩ := view_xunsetenv (e := e) hname
  rw [getenv_eq_lookup, hview]
  exact lookup_blanked_of_starts hname List.prefix_rfl _

/-- Before the first entry that begins with a name there is no variable of the name. -/
theorem getenv_front {front : List Nat} (hbefore : ∀ x ∈ front, name.isPrefixOf (e.string x) = false)
    (errno : Errno) : getenv { e with environ := front, errno } name = none :=
  List.findSome?_eq_none_iff.mpr fun x hx => entry_value_eq_none_of_not_isPrefixOf (hbefore x hx)

/-- `EnvList` between two calls of any run: in order, or just created, without the string that
    was to go into it. -/
def Settled (e : Env) : Prop := ListInv e ∨ CapacityOk e ∧ ∃ junk, Table e [] (.uninit :: junk)

theorem Settled.capacityOk (h : Settled e) : CapacityOk e := by
  obtain ⟨hcap, _⟩ | ⟨hcap, _⟩ := h
  · exact hcap
  · exact hcap

/-- A walk that ends has found `EnvList` in order. -/
theorem Settled.of_walk {np : Option Nat} (h : Settled e) (hwalk : walk_EnvList e p = .ok np) :
    ListInv e := by
  obtain hinv | ⟨_, junk, htable⟩ := h
  · exact hinv
  · rw [walk_EnvList, htable.cells] at hwalk
    cases hwalk

/-- A call that begins to replace an entry and then fails is seen: the variable is gone. -/
theorem granted_of_failsUnseen (h : Settled e) (hfresh : FreshMemory e call)
    (hunseen : FailsUnseen e call) : ReplacementGranted e call := by
  cases call with
  | xunsetenv name => trivial
  | xsetenv name value overwrite r =>
    intro p htarget
    cases name with
    | none => cases htarget
    | some name =>
      obtain ⟨hover, front, back, v, hat⟩ := walksAt_of_target htarget
      obtain ⟨w, hw⟩ := Option.isSome_iff_exists.mp hat.set
      have hgone {e' : Env} (hexec : xsetenv e r (some name) value overwrite = .ok (e', -1)) :
          getenv e' name ≠ none := by
        rw [hunseen e' hexec, hw]
        exact Option.some_ne_none w
      have hlong : ¬value.length < v.length := not_lt.mpr hat.long
      have hrun : xsetenv e r (some name) value overwrite = _ :=
        xsetenv_at_first hat.split hat.starts hat.before hat.valid hat.set hover
      cases hwalk : walk_EnvList e p with
      | error fault => trivial
      | ok np =>
        simp only [overwrite_entry, hat.existing, if_neg hlong, hwalk, exec_bind_ok] at hrun
        cases np with
        | some np =>
          cases hq : r.resize with
          | some q =>
            rw [GrantedAfter, hq]
            rfl
          | none =>
            have htake : e.environ.take front.length = front := by simp [hat.split]
            simp only [hq, exec_pure, exec_bind_ok, htake] at hrun
            exact absurd (getenv_front hat.before .ENOMEM) (hgone hrun)
        | none =>
          have hsame := xunsetenv_sameList e (some name)
          obtain ⟨hcap, ptrs, howned⟩ := h.of_walk hwalk
          obtain ⟨e', ret, hnew⟩ :=
            xsetenv_new_returns (hsame.owned howned) (hsame.capacityOk hcap) r name value
          simp only [exec_pure, exec_bind_ok, hnew] at hrun
          have hret : ret ≠ -1 := by
            rintro rfl
            obtain ⟨henviron, hstring⟩ := xsetenv_new_fails hnew (by rwa [xunsetenv_environ])
            have hnone := getenv_congr henviron hstring name
            rw [getenv_xunsetenv hat.valid] at hnone
            exact hgone hrun hnone
          have hlist : (xunsetenv e (some name)).1.EnvList ≠ none := by
            rw [hsame.list]
            exact walk_EnvList_allocated hwalk
          have hgranted := xsetenv_new_granted hnew hlist hret
          rwa [hsame.next, hsame.capacity] at hgranted

/-- The first allocation of `EnvList`, without the string for it. -/
theorem settled_of_half_created (hcap : CapacityOk e) (hnone : e.EnvList = none)
    (hcreate : create_list e r = some e') : Settled e' := by
  simp only [create_list, hnone, Option.map_eq_some_iff] at hcreate
  obtain ⟨n, hn, rfl⟩ := hcreate
  rw [list_cells_eq r.list hcap.2] at hn
  split at hn
  · rename_i hgranted
    obtain rfl := Option.some.inj hn
    obtain ⟨n, hn⟩ : ∃ n, e.EnvListCapacity = n + 1 := ⟨e.EnvListCapacity - 1, by have := hcap.1; omega⟩
    refine Or.inr ⟨hcap, List.replicate n .uninit, ?_, rfl, by simp [hn], hgranted.2⟩
    rw [hn]
    rfl
  · cases hn

theorem Settled.same (h : Settled e) (hsame : SameList e e') : Settled e' := by
  obtain ⟨hcap, ptrs, howned⟩ | ⟨hcap, junk, htable⟩ := h
  · exact Or.inl ⟨hsame.capacityOk hcap, ptrs, hsame.owned howned⟩
  · exact Or.inr ⟨hsame.capacityOk hcap, junk, hsame.table htable⟩

/-- The allocation part leaves `EnvList` in order, or just created. -/
theorem xsetenv_new_settled (h : Settled e) (hnew : xsetenv_new e r name value = .ok (e', ret)) :
    Settled e' := by
  cases hq : r.envvar with
  | none =>
    obtain ⟨_, rfl, _⟩ | ⟨e₁, hcreate, ⟨_, rfl, _⟩ | ⟨q, hsome, _⟩⟩ := xsetenv_new_outcomes hnew
    · exact h.same (errno_sameList e .ENOMEM)
    · refine Settled.same ?_ (errno_sameList e₁ .ENOMEM)
      by_cases hnone : e.EnvList = none
      · exact settled_of_half_created (h.capacityOk) hnone hcreate
      · rwa [(create_list_fields hcreate).2.2.2.2.1 hnone]
    · rw [hq] at hsome
      cases hsome
  | some q =>
    obtain ⟨hcap, ptrs, howned⟩ | ⟨hcap, junk, htable⟩ := h
    · obtain ⟨e₁, ret₁, hrun, hinv⟩ := xsetenv_new_list r name value howned hcap fun _ _ => by rw [hq]; rfl
      rw [hnew] at hrun
      cases hrun
      exact Or.inl hinv
    · have hcreate : create_list e r = some e := by simp [create_list, htable.cells]
      obtain ⟨e₁, hrun, _, _, hnone, _, _, hcap₁⟩ | ⟨e₁, hrun, howned, _, _, hcap₁⟩ :=
        xsetenv_new_ready name value hcreate htable hcap hq
      · rw [hnew] at hrun
        cases hrun
        exact Or.inl ⟨hcap₁, [], Or.inl ⟨hnone, rfl⟩⟩
      · rw [hnew] at hrun
        have hsame := putenv_sameList e₁ r.putenv q
        rw [← Except.ok.inj hrun] at hsame
        exact Or.inl ⟨hsame.capacityOk hcap₁, _, hsame.owned howned⟩

theorem step_settled (h : Settled e) (hstep : step e call = .ok e') : Settled e' := by
  obtain ⟨ret, hexec⟩ := step_ok_iff.mp hstep
  cases call with
  | xunsetenv name => exact h.same (exec_xunsetenv_sameList hexec)
  | xsetenv name value overwrite r =>
    have hrun : xsetenv e r name value overwrite = .ok (e', ret) := hexec
    cases htarget : walk_target e (.xsetenv name value overwrite r) with
    | none =>
      obtain ⟨n, _, _, _, hnew⟩ | ⟨hsame, _⟩ := xsetenv_no_walk htarget hrun
      · exact xsetenv_new_settled h hnew
      · exact h.same hsame
    | some p =>
      cases name with
      | none => cases htarget
      | some name =>
        obtain ⟨hover, front, back, v, hat⟩ := walksAt_of_target htarget
        obtain ⟨np, hwalk⟩ : ∃ np, walk_EnvList e p = .ok np := by
          obtain ⟨np, hwalk, _⟩ | ⟨hwalk, _⟩ := hat.outcomes hover hrun
          · exact ⟨some np, hwalk⟩
          · exact ⟨none, hwalk⟩
        have hkeeps : KeepsTerminator e (.xsetenv (some name) value overwrite r) := by
          intro _ hunset
          have hset := hat.set
          rw [hunset] at hset
          cases hset
        obtain ⟨e₁, hok, hinv⟩ | ⟨fault, herror, _⟩ := step_list _ (h.of_walk hwalk) hkeeps
        · rw [hstep] at hok
          cases hok
          exact Or.inl hinv
        · rw [hstep] at herror
          cases herror

/-- In every run from the start of a program in which each call that has begun to replace an entry
    gets what it asks for, and in no other, a call that fails changes nothing that can be seen. -/
theorem runs_fail_unseen_iff (e : Env) (calls : List Call) (hnone : e.EnvList = none)
    (hcapacity : e.EnvListCapacity = 1024) (hfresh : Along step FreshMemory e calls) :
    Along step FailsUnseen e calls ↔ Along step ReplacementGranted e calls := by
  have hsettled : Settled e := by
    refine Or.inl ⟨?_, [], Or.inl ⟨hnone, rfl⟩⟩
    unfold CapacityOk
    rw [hcapacity]
    decide
  refine Along.iff_of_invariant (fun e call h hfresh => ?_)
    (fun e call e' h _ hstep => step_settled h hstep) hsettled hfresh
  exact ⟨granted_of_failsUnseen h hfresh, failsUnseen_of_granted hfresh⟩

end Atomic

/-- `A` gets a value. -/
def firstValue : Call := .xsetenv (some ['A']) ['1'] 0 ⟨true, true, some 1, none, true⟩

/-- There is no memory for `B`. -/
def refusedVariable : Call := .xsetenv (some ['B']) ['2'] 0 ⟨true, true, none, none, true⟩

/-- There is no memory for a longer value of `A`. -/
def refusedValue : Call := .xsetenv (some ['A']) ['1', '2'] 1 ⟨true, true, none, none, true⟩

theorem refusedVariable_unseen : Along step FailsUnseen emptyEnv [firstValue, refusedVariable] :=
  (runs_fail_unseen_iff emptyEnv [firstValue, refusedVariable] rfl rfl (by decide +kernel)).mpr
    (by decide +kernel)

/-- `A` is gone after the call that failed. -/
theorem refusedValue_seen :
    Along step FreshMemory emptyEnv [firstValue, refusedValue] ∧
      ¬Along step FailsUnseen emptyEnv [firstValue, refusedValue] := by
  refine ⟨by decide +kernel, fun h => ?_⟩
  have hseen : ((run step emptyEnv [firstValue]).toOption.bind fun e => (exec e refusedValue).toOption.map
      fun result => (result.2, getenv result.1 ['A'], getenv e ['A'])) = some (-1, none, some ['1']) := by
    decide +kernel
  cases hrun : run step emptyEnv [firstValue] with
  | error fault =>
    rw [hrun] at hseen
    cases hseen
  | ok e =>
    have hfails : FailsUnseen e refusedValue := h.of_run_ok hrun
    rw [hrun] at hseen
    cases hexec : exec e refusedValue with
    | error fault =>
      simp only [Except.toOption, Option.bind_some, hexec] at hseen
      cases hseen
    | ok result =>
      simp only [Except.toOption, Option.bind_some, hexec, Option.map_some, Option.some.injEq,
        Prod.mk.injEq] at hseen
      obtain ⟨hret, hgone, hset⟩ := hseen
      have hunseen := hfails result.1 (by rw [hexec, ← hret]) ['A']
      rw [hgone, hset] at hunseen
      cases hunseen

end tlpi.setenv
