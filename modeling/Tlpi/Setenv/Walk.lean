import Tlpi.Setenv.Failures
import Tlpi.Setenv.Unset

namespace tlpi.setenv

/-- The entry for which a call walks `EnvList`: the first one that begins with the name, if the
    variable is set, may be overwritten and has no room for the value. -/
def walk_target (e : Env) : Call → Option Nat
  | .xsetenv (some name) value overwrite _ =>
    if invalid_name name = false ∧ (getenv e name).isSome = true ∧ overwrite ≠ 0 then
      (e.environ.find? fun p => name.isPrefixOf (e.string p)).filter fun p =>
        (after_equals (e.string p)).any fun existing_value => decide (existing_value.length ≤ value.length)
    else none
  | _ => none

/-- A call that sets a variable that is not set. -/
def Creates (e : Env) : Call → Prop
  | .xsetenv (some name) _ _ _ => invalid_name name = false ∧ getenv e name = none
  | _ => False

/-- All allocations that a call may make succeed. -/
def AllGranted (e : Env) : Call → Prop
  | .xsetenv _ _ _ r =>
    (e.EnvList = none → (list_cells r.list e.EnvListCapacity).isSome = true) ∧
      (e.NextEnvVar = size_sub e.EnvListCapacity 1 →
        (list_cells r.grow (e.EnvListCapacity * 2 % 2 ^ 64)).isSome = true) ∧
      r.envvar.isSome = true ∧ r.resize.isSome = true ∧ r.putenv = true
  | .xunsetenv _ => True

instance (e : Env) (call : Call) : Decidable (AllGranted e call) :=
  match call with
  | .xsetenv _ _ _ _ => inferInstanceAs (Decidable (_ ∧ _))
  | .xunsetenv _ => isTrue trivial

/-- A call that walks `EnvList` finds it allocated. -/
def WalkAllocated (e : Env) (call : Call) : Prop := (walk_target e call).isSome = true → e.EnvList ≠ none

/-- A call that does not walk `EnvList`. -/
def NoWalk (e : Env) (call : Call) : Prop := walk_target e call = none

section New

variable {e e₁ e' : Env} {r : Replies} {name value : List Char} {q : Nat} {ret : Int}

theorem create_list_fields (h : create_list e r = some e₁) :
    e₁.environ = e.environ ∧ e₁.string = e.string ∧ e₁.EnvListCapacity = e.EnvListCapacity ∧
      e₁.EnvList ≠ none ∧ (e.EnvList ≠ none → e₁ = e) ∧ (e.EnvList = none → e₁.NextEnvVar = 0) := by
  cases hlist : e.EnvList with
  | some cells =>
    simp only [create_list, hlist, Option.some.injEq] at h
    subst h
    exact ⟨rfl, rfl, rfl, by simp [hlist], fun _ => rfl, fun hnone => by cases hnone⟩
  | none =>
    simp only [create_list, hlist, Option.map_eq_some_iff] at h
    obtain ⟨n, _, rfl⟩ := h
    exact ⟨rfl, rfl, rfl, by simp, fun hsome => absurd rfl hsome, fun _ => rfl⟩

theorem grow_list_fields (e : Env) (r : Replies) :
    (grow_list e r).1.environ = e.environ ∧ (grow_list e r).1.string = e.string := by
  unfold grow_list
  split
  · dsimp only
    split <;> exact ⟨rfl, rfl⟩
  · exact ⟨rfl, rfl⟩

/-- Doubling the array succeeds if its allocation does. -/
theorem grow_list_granted (hlist : e.EnvList ≠ none)
    (hgrow : e.NextEnvVar = size_sub e.EnvListCapacity 1 →
      (list_cells r.grow (e.EnvListCapacity * 2 % 2 ^ 64)).isSome = true) :
    (grow_list e r).2 = true ∧ (grow_list e r).1.EnvList ≠ none := by
  unfold grow_list
  split
  · rename_i hfull
    obtain ⟨n, hn⟩ := Option.isSome_iff_exists.mp (hgrow hfull)
    dsimp only
    rw [hn]
    exact ⟨rfl, by simpa using hlist⟩
  · exact ⟨rfl, hlist⟩

theorem set_cell_fields {i : Nat} {cell : Cell} (h : e.set_cell i cell = .ok e') :
    e'.environ = e.environ ∧ e'.string = e.string ∧ e'.EnvList ≠ none := by
  unfold Env.set_cell at h
  split at h
  · cases h
  · split at h
    · cases h
      exact ⟨rfl, rfl, Option.some_ne_none _⟩
    · cases h

theorem add_envvar_fields (h : add_envvar e q name value = .ok e') :
    e'.environ = e.environ ∧ e'.string = Function.update e.string q (name ++ '=' :: value) ∧
      e'.EnvList ≠ none := by
  obtain ⟨e₁, hfirst, h⟩ := exec_bind_eq_ok_iff.mp h
  obtain ⟨e₂, hsecond, h⟩ := exec_bind_eq_ok_iff.mp h
  cases h
  obtain ⟨henviron₁, hstring₁, _⟩ := set_cell_fields hfirst
  obtain ⟨henviron₂, hstring₂, hlist⟩ := set_cell_fields hsecond
  refine ⟨henviron₂.trans henviron₁, ?_, hlist⟩
  simp only [Env.set_string]
  rw [hstring₂, hstring₁]

/-- The ways in which the allocation part of `xsetenv` returns. -/
theorem xsetenv_new_outcomes (h : xsetenv_new e r name value = .ok (e', ret)) :
    (create_list e r = none ∧ e' = { e with errno := .ENOMEM } ∧ ret = -1) ∨
      ∃ e₁, create_list e r = some e₁ ∧
        (r.envvar = none ∧ e' = { e₁ with errno := .ENOMEM } ∧ ret = -1 ∨
          ∃ q, r.envvar = some q ∧
            ((grow_list e₁ r).2 = false ∧ e' = { (grow_list e₁ r).1 with errno := .ENOMEM } ∧ ret = -1 ∨
              (grow_list e₁ r).2 = true ∧ ∃ e₂, add_envvar (grow_list e₁ r).1 q name value = .ok e₂ ∧
                putenv e₂ r.putenv q = (e', ret))) := by
  unfold xsetenv_new at h
  cases hcreate : create_list e r with
  | none =>
    rw [hcreate] at h
    cases h
    exact Or.inl ⟨rfl, rfl, rfl⟩
  | some e₁ =>
    rw [hcreate] at h
    refine Or.inr ⟨e₁, rfl, ?_⟩
    cases hq : r.envvar with
    | none =>
      simp only [hq] at h
      cases h
      exact Or.inl ⟨rfl, rfl, rfl⟩
    | some q =>
      simp only [hq] at h
      refine Or.inr ⟨q, rfl, ?_⟩
      cases hgrow : grow_list e₁ r with
      | mk e₂ grown =>
        rw [hgrow] at h
        cases grown with
        | false =>
          cases h
          exact Or.inl ⟨rfl, rfl, rfl⟩
        | true =>
          obtain ⟨e₃, hadd, h⟩ := exec_bind_eq_ok_iff.mp h
          exact Or.inr ⟨rfl, e₃, hadd, Except.ok.inj h⟩

/-- With all allocations granted the allocation part leaves an allocated table. -/
theorem xsetenv_new_allocates (h : xsetenv_new e r name value = .ok (e', ret))
    (hlist : e.EnvList = none → (list_cells r.list e.EnvListCapacity).isSome = true)
    (hcapacity : e.EnvList = none → size_sub e.EnvListCapacity 1 ≠ 0)
    (hgrow : e.NextEnvVar = size_sub e.EnvListCapacity 1 →
      (list_cells r.grow (e.EnvListCapacity * 2 % 2 ^ 64)).isSome = true)
    (henvvar : r.envvar.isSome = true) : e'.EnvList ≠ none := by
  obtain ⟨hcreate, _⟩ | ⟨e₁, hcreate, ⟨hq, _⟩ | ⟨q, hq, hgrown⟩⟩ := xsetenv_new_outcomes h
  · cases hthere : e.EnvList with
    | some cells => simp [create_list, hthere] at hcreate
    | none =>
      obtain ⟨n, hn⟩ := Option.isSome_iff_exists.mp (hlist hthere)
      simp [create_list, hthere, hn] at hcreate
  · rw [hq] at henvvar
    cases henvvar
  · obtain ⟨_, _, hcap, hthere, hsame, hzero⟩ := create_list_fields hcreate
    have hroom : e₁.NextEnvVar = size_sub e₁.EnvListCapacity 1 →
        (list_cells r.grow (e₁.EnvListCapacity * 2 % 2 ^ 64)).isSome = true := by
      intro hfull
      by_cases hnone : e.EnvList = none
      · rw [hzero hnone, hcap] at hfull
        exact absurd hfull.symm (hcapacity hnone)
      · rw [hsame hnone] at hfull ⊢
        exact hgrow hfull
    obtain ⟨hgranted, _⟩ := grow_list_granted hthere hroom
    obtain ⟨hrefused, _⟩ | ⟨_, e₂, hadd, hput⟩ := hgrown
    · rw [hgranted] at hrefused
      cases hrefused
    · have hsame := putenv_sameList e₂ r.putenv q
      rw [hput] at hsame
      rw [hsame.list]
      exact (add_envvar_fields hadd).2.2

end New

/-- What holds where a call comes to the walk along `EnvList`. -/
structure WalksAt (e : Env) (name value : List Char) (front : List Nat) (p : Nat) (back : List Nat)
    (existing_value : List Char) : Prop where
  valid : invalid_name name = false
  set : (getenv e name).isSome = true
  split : e.environ = front ++ p :: back
  starts : name.isPrefixOf (e.string p) = true
  before : ∀ x ∈ front, name.isPrefixOf (e.string x) = false
  existing : after_equals (e.string p) = some existing_value
  long : existing_value.length ≤ value.length

section Target

variable {e e' : Env} {r : Replies} {name value v : List Char} {overwrite ret : Int} {p : Nat}
    {front back : List Nat}

theorem walksAt_of_target (h : walk_target e (.xsetenv (some name) value overwrite r) = some p) :
    overwrite ≠ 0 ∧ ∃ front back v, WalksAt e name value front p back v := by
  simp only [walk_target] at h
  split at h
  · rename_i hreach
    obtain ⟨hvalid, hset, hover⟩ := hreach
    rw [Option.filter_eq_some_iff] at h
    obtain ⟨hfind, hlong⟩ := h
    obtain ⟨hstarts, front, back, hsplit, hbefore⟩ := List.find?_eq_some_iff_append.mp hfind
    have hbefore (x : Nat) (hx : x ∈ front) : name.isPrefixOf (e.string x) = false := by
      simpa using hbefore x hx
    cases hexisting : after_equals (e.string p) with
    | none =>
      rw [hexisting] at hlong
      cases hlong
    | some v =>
      rw [hexisting] at hlong
      exact ⟨hover, front, back, v, hvalid, hset, hsplit, hstarts, hbefore, hexisting, by simpa using hlong⟩
  · cases h

theorem WalksAt.target (h : WalksAt e name value front p back v) (hover : overwrite ≠ 0) (r : Replies) :
    walk_target e (.xsetenv (some name) value overwrite r) = some p := by
  have hfind : e.environ.find? (fun p => name.isPrefixOf (e.string p)) = some p := by
    rw [List.find?_eq_some_iff_append]
    exact ⟨h.starts, front, back, h.split, fun x hx => by simpa using h.before x hx⟩
  simp only [walk_target]
  rw [if_pos ⟨h.valid, h.set, hover⟩, hfind, Option.filter_eq_some_iff, h.existing]
  exact ⟨rfl, by simpa using h.long⟩

/-- What a call that walks `EnvList` can return: the string has to be reallocated, or it is a
    foreign one that is unset before a new one is made. -/
theorem WalksAt.outcomes (h : WalksAt e name value front p back v) (hover : overwrite ≠ 0)
    (hrun : xsetenv e r (some name) value overwrite = .ok (e', ret)) :
    (∃ np, walk_EnvList e p = .ok (some np) ∧
        (r.resize = none ∧ e' = { e with environ := front, errno := .ENOMEM } ∧ ret = -1 ∨
          r.resize ≠ none ∧ e'.EnvList ≠ none ∧ ret = 0)) ∨
      walk_EnvList e p = .ok none ∧
        xsetenv_new (xunsetenv e (some name)).1 r name value = .ok (e', ret) := by
  rw [xsetenv_at_first h.split h.starts h.before h.valid h.set hover] at hrun
  have hlong : ¬value.length < v.length := not_lt.mpr h.long
  have htake : e.environ.take front.length = front := by simp [h.split]
  cases hwalk : walk_EnvList e p with
  | error fault =>
    simp only [overwrite_entry, h.existing, if_neg hlong, hwalk, exec_bind_error] at hrun
    cases hrun
  | ok np =>
    cases np with
    | none =>
      simp only [overwrite_entry, h.existing, if_neg hlong, hwalk, exec_bind_ok, exec_pure] at hrun
      exact Or.inr ⟨rfl, hrun⟩
    | some np =>
      refine Or.inl ⟨np, rfl, ?_⟩
      cases hq : r.resize with
      | none =>
        simp only [overwrite_entry, h.existing, if_neg hlong, hwalk, exec_bind_ok, hq, exec_pure, htake]
          at hrun
        cases hrun
        exact Or.inl ⟨rfl, rfl, rfl⟩
      | some q =>
        simp only [overwrite_entry, h.existing, if_neg hlong, hwalk, exec_bind_ok, hq] at hrun
        obtain ⟨flow, hflow, hrun⟩ := exec_bind_eq_ok_iff.mp hrun
        obtain ⟨e₁, hcell, hflow⟩ := exec_bind_eq_ok_iff.mp hflow
        cases hflow
        cases hrun
        refine Or.inr ⟨by simp, ?_, rfl⟩
        rw [(putenv_sameList _ r.putenv q).list]
        exact (set_cell_fields hcell).2.2

/-- A variable that is set and needs no walk is kept or overwritten in its place. -/
theorem xsetenv_in_place (h : walk_target e (.xsetenv (some name) value overwrite r) = none)
    (hname : invalid_name name = false) (hset : (getenv e name).isSome = true)
    (hrun : xsetenv e r (some name) value overwrite = .ok (e', ret)) :
    SameList e e' ∧ (ret = -1 → e'.environ = e.environ ∧ e'.string = e.string) := by
  obtain ⟨w, hw⟩ := Option.isSome_iff_exists.mp hset
  by_cases hover : overwrite = 0
  · simp only [xsetenv, hname, hw, hover, if_true] at hrun
    cases hrun
    exact ⟨SameList.refl e, fun _ => ⟨rfl, rfl⟩⟩
  · obtain ⟨ep, hfind⟩ := findIdx_isSome_of_getenv hw
    obtain ⟨front, p, back, hsplit, _, hstarts, hbefore⟩ := exists_of_findIdx hfind
    rw [xsetenv_at_first hsplit hstarts hbefore hname hset hover] at hrun
    cases hexisting : after_equals (e.string p) with
    | none =>
      simp only [overwrite_entry, hexisting, exec_bind_error] at hrun
      cases hrun
    | some v =>
      by_cases hshort : value.length < v.length
      · simp only [overwrite_entry, hexisting, if_pos hshort, exec_bind_ok, exec_pure] at hrun
        cases hrun
        exact ⟨set_string_sameList e p _, fun hret => absurd hret (by decide)⟩
      · have hat : WalksAt e name value front p back v :=
          ⟨hname, hset, hsplit, hstarts, hbefore, hexisting, not_lt.mp hshort⟩
        rw [hat.target hover r] at h
        cases h

/-- A variable that is not set goes to the allocations. -/
theorem xsetenv_unset (hname : invalid_name name = false) (hunset : getenv e name = none) (r : Replies)
    (overwrite : Int) : xsetenv e r (some name) value overwrite = xsetenv_new e r name value := by
  simp only [xsetenv, hname, hunset]
  rfl

/-- What a call that does not walk `EnvList` can return: it goes on to the allocations because
    the variable is not set, or it keeps the table, and all else if it fails. -/
theorem xsetenv_no_walk {name : Option (List Char)}
    (h : walk_target e (.xsetenv name value overwrite r) = none)
    (hrun : xsetenv e r name value overwrite = .ok (e', ret)) :
    (∃ n, name = some n ∧ invalid_name n = false ∧ getenv e n = none ∧
        xsetenv_new e r n value = .ok (e', ret)) ∨
      SameList e e' ∧ (ret = -1 → e'.environ = e.environ ∧ e'.string = e.string) := by
  cases name with
  | none =>
    cases hrun
    exact Or.inr ⟨errno_sameList e .EINVAL, fun _ => ⟨rfl, rfl⟩⟩
  | some name =>
    cases hinvalid : invalid_name name with
    | true =>
      simp only [xsetenv, hinvalid, if_true] at hrun
      cases hrun
      exact Or.inr ⟨errno_sameList e .EINVAL, fun _ => ⟨rfl, rfl⟩⟩
    | false =>
      cases hget : getenv e name with
      | none =>
        rw [xsetenv_unset hinvalid hget] at hrun
        exact Or.inl ⟨name, rfl, hinvalid, hget, hrun⟩
      | some w => exact Or.inr (xsetenv_in_place h hinvalid (by rw [hget]; rfl) hrun)

end Target

section Runs

variable {e e' : Env} {call : Call}

/-- The start of a program: `EnvList` is not there and has its first capacity. -/
def Unallocated (e : Env) : Prop := e.EnvList = none ∧ e.EnvListCapacity = 1024

theorem step_ok_iff : step e call = .ok e' ↔ ∃ ret, exec e call = .ok (e', ret) := by
  unfold step
  rw [exec_bind_eq_ok_iff]
  constructor
  · rintro ⟨⟨e₁, ret⟩, hexec, heq⟩
    cases heq
    exact ⟨ret, hexec⟩
  · rintro ⟨ret, hexec⟩
    exact ⟨(e', ret), hexec, rfl⟩

theorem exec_xunsetenv_sameList {name : Option (List Char)} {ret : Int}
    (h : exec e (.xunsetenv name) = .ok (e', ret)) : SameList e e' := by
  have hsame := xunsetenv_sameList e name
  rwa [Except.ok.inj h] at hsame

theorem noWalk_of_creates (h : Creates e call) : NoWalk e call := by
  cases call with
  | xunsetenv name => rfl
  | xsetenv name value overwrite r =>
    cases name with
    | none => rfl
    | some name =>
      obtain ⟨_, hunset⟩ := h
      simp [NoWalk, walk_target, hunset]

/-- A call that neither creates a variable nor walks `EnvList` leaves it as it is. -/
theorem step_stays (h : Unallocated e) (hcreates : ¬Creates e call) (hwalk : NoWalk e call)
    (hstep : step e call = .ok e') : Unallocated e' := by
  obtain ⟨hnone, hcapacity⟩ := h
  obtain ⟨ret, hexec⟩ := step_ok_iff.mp hstep
  have hsame : SameList e e' := by
    cases call with
    | xunsetenv name => exact exec_xunsetenv_sameList hexec
    | xsetenv name value overwrite r =>
      obtain ⟨n, rfl, hvalid, hunset, _⟩ | ⟨hsame, _⟩ := xsetenv_no_walk hwalk hexec
      · exact absurd ⟨hvalid, hunset⟩ hcreates
      · exact hsame
  exact ⟨hsame.list.trans hnone, hsame.capacity.trans hcapacity⟩

/-- A call that creates a variable allocates `EnvList`. -/
theorem step_allocates (h : Unallocated e) (hgranted : AllGranted e call) (hcreates : Creates e call)
    (hstep : step e call = .ok e') : e'.EnvList ≠ none := by
  obtain ⟨ret, hexec⟩ := step_ok_iff.mp hstep
  cases call with
  | xunsetenv name => exact hcreates.elim
  | xsetenv name value overwrite r =>
    cases name with
    | none => exact hcreates.elim
    | some name =>
      obtain ⟨hvalid, hunset⟩ := hcreates
      obtain ⟨hlist, hgrow, henvvar, _⟩ := hgranted
      have hexec : xsetenv e r (some name) value overwrite = .ok (e', ret) := hexec
      rw [xsetenv_unset hvalid hunset] at hexec
      refine xsetenv_new_allocates hexec hlist (fun _ => ?_) hgrow henvvar
      rw [h.2]
      decide

/-- Once it is allocated, `EnvList` stays. -/
theorem step_stays_allocated (h : e.EnvList ≠ none) (hgranted : AllGranted e call)
    (hstep : step e call = .ok e') : e'.EnvList ≠ none := by
  obtain ⟨ret, hexec⟩ := step_ok_iff.mp hstep
  cases call with
  | xunsetenv name => rwa [(exec_xunsetenv_sameList hexec).list]
  | xsetenv name value overwrite r =>
    have hexec : xsetenv e r name value overwrite = .ok (e', ret) := hexec
    obtain ⟨_, hgrow, henvvar, hresize, _⟩ := hgranted
    cases htarget : walk_target e (.xsetenv name value overwrite r) with
    | none =>
      obtain ⟨n, rfl, _, _, hnew⟩ | ⟨hsame, _⟩ := xsetenv_no_walk htarget hexec
      · exact xsetenv_new_allocates hnew (fun hnone => absurd hnone h) (fun hnone => absurd hnone h)
          hgrow henvvar
      · rwa [hsame.list]
    | some p =>
      cases name with
      | none => cases htarget
      | some name =>
        obtain ⟨hover, front, back, v, hat⟩ := walksAt_of_target htarget
        obtain ⟨np, _, ⟨hnone, _⟩ | ⟨_, hlist, _⟩⟩ | ⟨_, hnew⟩ := hat.outcomes hover hexec
        · rw [hnone] at hresize
          cases hresize
        · exact hlist
        · have hsame := xunsetenv_sameList e (some name)
          have hthere : (xunsetenv e (some name)).1.EnvList ≠ none := by rwa [hsame.list]
          refine xsetenv_new_allocates hnew (fun hnone => absurd hnone hthere)
            (fun hnone => absurd hnone hthere) ?_ henvvar
          rw [hsame.next, hsame.capacity]
          exact hgrow

/-- In a run in which all allocations succeed, `EnvList` is allocated whenever it is walked, if
    and only if no call walks it before one has created a variable. -/
theorem runs_walk_allocated_iff (e : Env) (calls : List Call) (hnone : e.EnvList = none)
    (hcapacity : e.EnvListCapacity = 1024) (hgranted : Along step AllGranted e calls) :
    Along step WalkAllocated e calls ↔ Before step Creates NoWalk e calls := by
  refine Along.iff_before Unallocated (fun e => e.EnvList ≠ none) ?_ ?_ ?_ ?_ ?_ ?_
    ⟨hnone, hcapacity⟩ hgranted
  · intro e call h
    unfold WalkAllocated NoWalk
    rw [← Option.not_isSome_iff_eq_none]
    exact ⟨fun hwalk hsome => hwalk hsome h.1, fun hno hsome => absurd hsome hno⟩
  · exact fun e call h _ => h
  · exact fun e call e' h _ hcreates hwalk hstep => step_stays h hcreates hwalk hstep
  · intro e call _ hcreates hsome
    rw [noWalk_of_creates hcreates] at hsome
    cases hsome
  · exact fun e call e' h hgranted hcreates hstep => step_allocates h hgranted hcreates hstep
  · exact fun e call e' h hgranted hstep => step_stays_allocated h hgranted hstep

end Runs

/-- A variable is created, and then set to a longer value. -/
def createdFirst : List Call :=
  [.xsetenv (some ['B']) ['1'] 0 ⟨true, true, some 3, some 4, true⟩,
    .xsetenv (some ['B']) ['1', '2'] 1 ⟨true, true, some 5, some 6, true⟩]

theorem createdFirst_walk_allocated : Along step WalkAllocated sharedPrefix createdFirst :=
  (runs_walk_allocated_iff sharedPrefix createdFirst rfl rfl (by decide +kernel)).mpr
    (Or.inl ⟨by decide, by decide⟩)

/-- An inherited variable is set to a longer value. -/
def inheritedFirst : List Call :=
  [.xsetenv (some ['A', 'B']) ['1', '2'] 1 ⟨true, true, some 3, some 4, true⟩]

/-- The walk starts from the null pointer that `EnvList` still is. -/
theorem inheritedFirst_walks_null :
    AllEntries sharedPrefix ∧ Along step AllGranted sharedPrefix inheritedFirst ∧
      ¬Along step WalkAllocated sharedPrefix inheritedFirst ∧
      run step sharedPrefix inheritedFirst = .error .nullPointer := by
  refine ⟨sharedPrefix_entries, by decide +kernel, fun h => ?_, rfl⟩
  exact h.1 (by decide) rfl

end tlpi.setenv
