import Tlpi.Setenv.Refine

namespace tlpi.setenv

/-- All entries of the environment are of the form `NAME=VALUE`. -/
def AllEntries (e : Env) : Prop := ∀ p ∈ e.environ, ∃ name value, e.string p = entry name value ∧ '=' ∉ name

/-- Every entry that begins with the name is one of the name itself: no variable has a longer
    name that begins with it. -/
def OnlyOwn (e : Env) (name : List Char) : Prop :=
  ∀ p ∈ e.environ, name.isPrefixOf (e.string p) = true → (entry_value name (e.string p)).isSome = true

instance (e : Env) (name : List Char) : Decidable (OnlyOwn e name) :=
  inferInstanceAs (Decidable (∀ p ∈ e.environ, _))

section Unset

variable {e : Env} {name : List Char}

/-- No entry of a name that begins with the blanked one is left. -/
theorem lookup_blanked_of_starts {m : List Char} (hname : invalid_name name = false) (h : name <+: m)
    (entries : List (List Char)) : lookup m (entries.map (blanked name)) = none := by
  refine List.findSome?_eq_none_iff.mpr fun str hstr => ?_
  obtain ⟨old, _, rfl⟩ := List.mem_map.mp hstr
  have hno : name.isPrefixOf (blanked name old) = false := by
    unfold blanked
    split
    · exact not_isPrefixOf_nil_of_valid hname
    · rename_i hold
      exact Bool.eq_false_iff.mpr hold
  cases hvalue : entry_value m (blanked name old) with
  | none => rfl
  | some v =>
    rw [eq_entry_of_entry_value hvalue] at hno
    have hstarts : name <+: entry m v := h.trans (List.prefix_append m _)
    rw [← List.isPrefixOf_iff_prefix, hno] at hstarts
    cases hstarts

/-- What the loop of `xunsetenv` leaves of the environment, as strings. -/
theorem view_xunsetenv (hname : invalid_name name = false) :
    (xunsetenv e (some name)).2 = 0 ∧
      view (xunsetenv e (some name)).1 = (view e).map (blanked name) := by
  obtain ⟨e', hrun, _, henviron, hstring⟩ := xunsetenv_eq (e := e) hname
  rw [hrun]
  refine ⟨rfl, ?_⟩
  rw [view, view, henviron, List.map_map]
  exact List.map_congr_left hstring

/-- Blanking by the prefix is seen under no other name exactly when no variable has a longer
    name that begins with the given one. -/
theorem lookup_blanked_iff (hentries : AllEntries e) (hname : invalid_name name = false) :
    (∀ m, m ≠ name → '=' ∉ m → lookup m ((view e).map (blanked name)) = lookup m (view e)) ↔
      OnlyOwn e name := by
  constructor
  · intro hsame p hp hstarts
    obtain ⟨m, v, hstring, hm⟩ := hentries p hp
    rw [ List.isPrefixOf_iff_prefix, hstring] at hstarts
    have hprefix := isPrefix_name_of_entry (no_equals_of_valid hname) hstarts
    by_cases hne : m = name
    · rw [hstring, hne, entry_value_self]
      rfl
    · have hset : lookup m (view e) = none := by
        rw [← hsame m hne hm]
        exact lookup_blanked_of_starts hname hprefix _
      have hnone := List.findSome?_eq_none_iff.mp hset _ (List.mem_map_of_mem hp)
      rw [hstring, entry_value_self] at hnone
      cases hnone
  · intro hown m hne hm
    refine lookup_blanked (fun str hstr hstarts => ?_) hm (no_equals_of_valid hname) hne
    obtain ⟨p, hp, rfl⟩ := List.mem_map.mp hstr
    exact hown p hp hstarts

/-- `xunsetenv` removes the named variable and no other, if and only if no variable has a
    longer name that begins with the given one: the loop compares no further than the name. -/
theorem xunsetenv_removes_iff (hentries : AllEntries e) (hname : invalid_name name = false) :
    ((xunsetenv e (some name)).2 = 0 ∧ getenv (xunsetenv e (some name)).1 name = none ∧
      ∀ m, m ≠ name → '=' ∉ m → getenv (xunsetenv e (some name)).1 m = getenv e m) ↔
      OnlyOwn e name := by
  obtain ⟨hret, hview⟩ := view_xunsetenv (e := e) hname
  rw [← lookup_blanked_iff hentries hname]
  simp only [getenv_eq_lookup, hview, hret, true_and]
  constructor
  · intro h
    exact h.2
  · intro h
    exact ⟨lookup_blanked_of_starts hname List.prefix_rfl _, h⟩

end Unset

/-- The environment `AB=1`, `A=2`. -/
def sharedPrefix : Env where
  string := fun p => if p = 1 then entry ['A', 'B'] ['1'] else entry ['A'] ['2']
  environ := [1, 2]
  EnvList := none
  NextEnvVar := 0
  EnvListCapacity := 1024
  errno := .other 0

theorem sharedPrefix_entries : AllEntries sharedPrefix := by
  intro p hp
  obtain rfl | rfl : p = 1 ∨ p = 2 := by simpa [sharedPrefix] using hp
  · exact ⟨['A', 'B'], ['1'], rfl, by decide⟩
  · exact ⟨['A'], ['2'], rfl, by decide⟩

/-- Unsetting `AB` leaves `A` alone. -/
theorem xunsetenv_longer_name :
    (xunsetenv sharedPrefix (some ['A', 'B'])).2 = 0 ∧
      getenv (xunsetenv sharedPrefix (some ['A', 'B'])).1 ['A', 'B'] = none ∧
      ∀ m, m ≠ ['A', 'B'] → '=' ∉ m →
        getenv (xunsetenv sharedPrefix (some ['A', 'B'])).1 m = getenv sharedPrefix m :=
  (xunsetenv_removes_iff sharedPrefix_entries (by decide)).mpr (by decide)

/-- Unsetting `A` removes `AB` too. -/
theorem xunsetenv_removes_longer :
    AllEntries sharedPrefix ∧ invalid_name ['A'] = false ∧ ¬ ((xunsetenv sharedPrefix (some ['A'])).2 = 0 ∧
      getenv (xunsetenv sharedPrefix (some ['A'])).1 ['A'] = none ∧
      ∀ m, m ≠ ['A'] → '=' ∉ m →
        getenv (xunsetenv sharedPrefix (some ['A'])).1 m = getenv sharedPrefix m) := by
  refine ⟨sharedPrefix_entries, by decide, ?_⟩
  rintro ⟨_, _, hothers⟩
  have hgone := hothers ['A', 'B'] (by decide) (by decide)
  revert hgone
  decide

end tlpi.setenv
