import Tlpi.Lib.Run
import Tlpi.Setenv.Model

namespace tlpi.setenv

/-- What is promised of `EnvList` between calls: there is none yet, or it has as many cells
    as its capacity says, begins with `NextEnvVar` pointers and goes on with a null pointer. -/
def ListOk (e : Env) : Prop :=
  e.EnvList = none ∨ ∃ cells, e.EnvList = some cells ∧ e.NextEnvVar < e.EnvListCapacity ∧
    cells.length = e.EnvListCapacity ∧ (∀ i < e.NextEnvVar, ∃ p, cells[i]? = some (.ptr p)) ∧
    cells[e.NextEnvVar]? = some .null

/-- `EnvList` begins with these pointers and goes on with these cells. -/
structure Table (e : Env) (ptrs : List Nat) (rest : List Cell) : Prop where
  cells : e.EnvList = some (ptrs.map Cell.ptr ++ rest)
  next : e.NextEnvVar = ptrs.length
  size : ptrs.length + rest.length = e.EnvListCapacity
  fits : e.EnvListCapacity * sizeof_pointer ≤ PTRDIFF_MAX

/-- The pointers that `EnvList` owns, none if it is not there. -/
def Owned (e : Env) (ptrs : List Nat) : Prop :=
  e.EnvList = none ∧ ptrs = [] ∨ ∃ junk, Table e ptrs (.null :: junk)

/-- The capacity is never so small that the first variable would not fit, and never so large
    that its size in bytes would wrap. -/
def CapacityOk (e : Env) : Prop := 2 ≤ e.EnvListCapacity ∧ e.EnvListCapacity * sizeof_pointer < 2 ^ 64

/-- The environment, the strings and the rest of the table are shared by the two states. -/
structure SameList (e e' : Env) : Prop where
  list : e'.EnvList = e.EnvList
  next : e'.NextEnvVar = e.NextEnvVar
  capacity : e'.EnvListCapacity = e.EnvListCapacity

section Same

variable {e e' e'' : Env} {ptrs : List Nat} {rest : List Cell}

theorem SameList.refl (e : Env) : SameList e e := ⟨rfl, rfl, rfl⟩

theorem SameList.trans (h : SameList e e') (h' : SameList e' e'') : SameList e e'' :=
  ⟨h'.list.trans h.list, h'.next.trans h.next, h'.capacity.trans h.capacity⟩

theorem SameList.table (h : SameList e e') (htable : Table e ptrs rest) : Table e' ptrs rest := by
  obtain ⟨hcells, hnext, hsize, hfits⟩ := htable
  refine ⟨h.list.trans hcells, h.next.trans hnext, by rw [h.capacity, hsize], ?_⟩
  rw [h.capacity]
  exact hfits

theorem SameList.owned (h : SameList e e') (howned : Owned e ptrs) : Owned e' ptrs := by
  obtain ⟨hnone, hptrs⟩ | ⟨junk, htable⟩ := howned
  · exact Or.inl ⟨h.list.trans hnone, hptrs⟩
  · exact Or.inr ⟨junk, h.table htable⟩

theorem CapacityOk.of_eq (hcap : CapacityOk e) (h : e'.EnvListCapacity = e.EnvListCapacity) :
    CapacityOk e' := by
  unfold CapacityOk
  rw [h]
  exact hcap

theorem SameList.capacityOk (h : SameList e e') (hcap : CapacityOk e) : CapacityOk e' :=
  hcap.of_eq h.capacity

theorem set_string_sameList (e : Env) (p : Nat) (str : List Char) : SameList e (e.set_string p str) :=
  ⟨rfl, rfl, rfl⟩

theorem environ_sameList (e : Env) (environ : List Nat) : SameList e { e with environ := environ } :=
  ⟨rfl, rfl, rfl⟩

theorem errno_sameList (e : Env) (errno : Errno) : SameList e { e with errno := errno } :=
  ⟨rfl, rfl, rfl⟩

theorem blank_fields (name : List Char) (e : Env) (p : Nat) :
    SameList e (blank name e p) ∧ (blank name e p).environ = e.environ := by
  unfold blank
  split
  · exact ⟨set_string_sameList e p [], rfl⟩
  · exact ⟨SameList.refl e, rfl⟩

theorem blank_all_fields (name : List Char) (ps : List Nat) (e : Env) :
    SameList e (ps.foldl (blank name) e) ∧ (ps.foldl (blank name) e).environ = e.environ := by
  induction ps generalizing e with
  | nil => exact ⟨SameList.refl e, rfl⟩
  | cons p ps ih =>
    obtain ⟨hsame, henviron⟩ := blank_fields name e p
    obtain ⟨hsame', henviron'⟩ := ih (blank name e p)
    exact ⟨hsame.trans hsame', henviron'.trans henviron⟩

theorem xunsetenv_sameList (e : Env) (name : Option (List Char)) : SameList e (xunsetenv e name).1 := by
  unfold xunsetenv
  cases name with
  | none => exact errno_sameList e .EINVAL
  | some name =>
    dsimp only
    split
    · exact errno_sameList e .EINVAL
    · exact (blank_all_fields name e.environ e).1

theorem putenv_sameList (e : Env) (granted : Bool) (p : Nat) : SameList e (putenv e granted p).1 := by
  unfold putenv
  dsimp only
  split
  · exact errno_sameList e .ENOMEM
  · split
    · split <;> exact environ_sameList e _
    · exact environ_sameList e _

end Same

section List

variable {e : Env} {ptrs : List Nat} {rest junk : List Cell}

theorem Owned.listOk (h : Owned e ptrs) : ListOk e := by
  obtain ⟨hnone, _⟩ | ⟨junk, hcells, hnext, hsize, _⟩ := h
  · exact Or.inl hnone
  · refine Or.inr ⟨_, hcells, ?_, ?_, fun i hi => ?_, ?_⟩
    · rw [hnext, ← hsize]
      simp
    · rw [← hsize]
      simp
    · rw [hnext] at hi
      exact ⟨ptrs.get ⟨i, hi⟩, by simp [List.getElem?_append_left, hi]⟩
    · rw [hnext]
      simp

/-- The allocation of the array either fails or has one cell for each unit of capacity. -/
theorem list_cells_eq (granted : Bool) {capacity : Nat} (h : capacity * sizeof_pointer < 2 ^ 64) :
    list_cells granted capacity =
      if granted = true ∧ capacity * sizeof_pointer ≤ PTRDIFF_MAX then some capacity else none := by
  simp only [list_cells, Nat.mod_eq_of_lt h]
  rw [Nat.mul_div_cancel _ (by decide : 0 < sizeof_pointer)]

/-- The walk finds the pointers of the table and no others. -/
theorem find_pointer_spec (p : Nat) (ptrs : List Nat) (junk : List Cell) :
    find_pointer p (ptrs.map Cell.ptr ++ .null :: junk) =
      .ok (if p ∈ ptrs then some (ptrs.idxOf p) else none) := by
  induction ptrs with
  | nil => simp [find_pointer]
  | cons q ptrs ih =>
    rw [List.map_cons, List.cons_append, find_pointer]
    by_cases hq : q = p
    · simp [hq]
    · rw [if_neg hq, ih, List.idxOf_cons_ne _ hq]
      have hpq : p ≠ q := Ne.symm hq
      by_cases hp : p ∈ ptrs <;> simp [hp, hpq]

theorem walk_EnvList_spec (p : Nat) (h : Table e ptrs (.null :: junk)) :
    walk_EnvList e p = .ok (if p ∈ ptrs then some (ptrs.idxOf p) else none) := by
  rw [walk_EnvList, h.cells]
  exact find_pointer_spec p ptrs junk

/-- A store into one of the pointers of the table. -/
theorem Table.set_ptr (h : Table e ptrs rest) {i : Nat} (hi : i < ptrs.length) (q : Nat) :
    ∃ e', e.set_cell i (.ptr q) = .ok e' ∧ Table e' (ptrs.set i q) rest ∧ e'.environ = e.environ ∧
      e'.string = e.string ∧ e'.EnvListCapacity = e.EnvListCapacity := by
  obtain ⟨hcells, hnext, hsize, hfits⟩ := h
  refine ⟨{ e with EnvList := some ((ptrs.set i q).map Cell.ptr ++ rest) }, ?_, ?_, rfl, rfl, rfl⟩
  · simp only [Env.set_cell, hcells]
    rw [if_pos (by simp; omega), List.set_append_left _ _ (by simpa using hi), List.map_set]
  · exact ⟨rfl, by simpa using hnext, by simpa using hsize, hfits⟩

/-- With two cells left, a new pointer and the null pointer after it can be stored. -/
theorem add_envvar_spec {c d : Cell} (h : Table e ptrs (c :: d :: junk)) (q : Nat)
    (name value : List Char) :
    ∃ e', add_envvar e q name value = .ok e' ∧ Table e' (ptrs ++ [q]) (.null :: junk) ∧
      e'.environ = e.environ ∧ e'.string = Function.update e.string q (name ++ '=' :: value) ∧
      e'.EnvListCapacity = e.EnvListCapacity := by
  obtain ⟨hcells, hnext, hsize, hfits⟩ := h
  refine ⟨Env.mk (Function.update e.string q (name ++ '=' :: value)) e.environ
    (some ((ptrs ++ [q]).map Cell.ptr ++ .null :: junk)) (ptrs.length + 1) e.EnvListCapacity e.errno,
    ?_, ⟨rfl, by simp, ?_, hfits⟩, rfl, rfl, rfl⟩
  · simp [add_envvar, Env.set_cell, hcells, hnext, Env.set_string]
  · simp only [List.length_append, List.length_cons, List.length_nil] at hsize ⊢
    omega

/-- After the creation of the array, which may fail, it is there with room for the null
    pointer at least. -/
theorem create_list_cases (r : Replies) (h : Owned e ptrs) (hcap : CapacityOk e) :
    e.EnvList = none ∧ list_cells r.list e.EnvListCapacity = none ∧ create_list e r = none ∨
      (∃ junk, Table e ptrs (.null :: junk)) ∧ create_list e r = some e ∨
      e.EnvList = none ∧ (list_cells r.list e.EnvListCapacity).isSome = true ∧
        ∃ e' c d junk, create_list e r = some e' ∧ Table e' ptrs (c :: d :: junk) ∧
          e'.environ = e.environ ∧
          e'.string = e.string ∧ e'.EnvListCapacity = e.EnvListCapacity := by
  obtain ⟨hnone, rfl⟩ | ⟨junk, htable⟩ := h
  · have hcells := list_cells_eq r.list hcap.2
    by_cases hgranted : r.list = true ∧ e.EnvListCapacity * sizeof_pointer ≤ PTRDIFF_MAX
    · rw [if_pos hgranted] at hcells
      obtain ⟨n, hn⟩ : ∃ n, e.EnvListCapacity = n + 2 :=
        ⟨e.EnvListCapacity - 2, by have := hcap.1; omega⟩
      refine Or.inr (Or.inr ⟨hnone, by simp [hcells], ?_⟩)
      refine ⟨Env.mk e.string e.environ
        (some (List.replicate e.EnvListCapacity .uninit)) 0 e.EnvListCapacity e.errno,
        .uninit, .uninit, List.replicate n .uninit, ?_, ⟨?_, rfl, by simp [hn], hgranted.2⟩,
        rfl, rfl, rfl⟩
      · simp only [create_list, hnone, hcells, Option.map_some]
      · rw [hn]
        rfl
    · rw [if_neg hgranted] at hcells
      exact Or.inl ⟨hnone, hcells, by simp [create_list, hnone, hcells]⟩
  · exact Or.inr (Or.inl ⟨⟨junk, htable⟩, by simp [create_list, htable.cells]⟩)

/-- After the doubling of the array, which may fail, it has room for one more pointer. -/
theorem grow_list_cases {c : Cell} (r : Replies) (h : Table e ptrs (c :: junk)) (hcap : CapacityOk e) :
    (∃ e', grow_list e r = (e', false) ∧ e.NextEnvVar + 1 = e.EnvListCapacity ∧
        list_cells r.grow (e.EnvListCapacity * 2) = none ∧ e'.EnvList = none ∧ e'.environ = e.environ ∧
        e'.string = e.string ∧ CapacityOk e') ∨
      ∃ e' d junk', grow_list e r = (e', true) ∧ Table e' ptrs (c :: d :: junk') ∧
        e'.environ = e.environ ∧
        e'.string = e.string ∧ CapacityOk e' := by
  obtain ⟨hcells, hnext, hsize, hfits⟩ := h
  have hlow := hcap.1
  have hlast : size_sub e.EnvListCapacity 1 = e.EnvListCapacity - 1 := by
    apply size_sub_eq
    · omega
    · have := hcap.2
      simp only [sizeof_pointer] at this
      omega
  simp only [List.length_cons] at hsize
  by_cases hfull : e.NextEnvVar = e.EnvListCapacity - 1
  · have hdouble : e.EnvListCapacity * 2 * sizeof_pointer < 2 ^ 64 := by
      simp only [sizeof_pointer, PTRDIFF_MAX] at hfits ⊢
      omega
    have hwrap : e.EnvListCapacity * 2 % 2 ^ 64 = e.EnvListCapacity * 2 := by
      apply Nat.mod_eq_of_lt
      simp only [sizeof_pointer] at hdouble
      omega
    have hbytes := list_cells_eq r.grow hdouble
    have hempty : junk = [] := List.length_eq_zero_iff.mp (by omega)
    by_cases hgranted : r.grow = true ∧ e.EnvListCapacity * 2 * sizeof_pointer ≤ PTRDIFF_MAX
    · rw [if_pos hgranted] at hbytes
      obtain ⟨n, hn⟩ : ∃ n, e.EnvListCapacity = n + 1 := ⟨e.EnvListCapacity - 1, by omega⟩
      refine Or.inr ⟨Env.mk e.string e.environ
        (some (resize_cells (e.EnvListCapacity * 2) (ptrs.map Cell.ptr ++ [c])))
        e.NextEnvVar (e.EnvListCapacity * 2) e.errno, .uninit, List.replicate n .uninit, ?_,
        ⟨?_, hnext, ?_, hgranted.2⟩, rfl, rfl, by simp only; omega, hdouble⟩
      · simp only [grow_list, hlast, if_pos hfull, hwrap, hbytes, hcells, hempty, Option.map_some]
      · have hlength : (ptrs.map Cell.ptr ++ [c]).length = e.EnvListCapacity := by
          simp only [List.length_append, List.length_map, List.length_cons, List.length_nil]
          omega
        have hrest : e.EnvListCapacity * 2 - e.EnvListCapacity = n + 1 := by omega
        simp only [resize_cells]
        rw [List.take_of_length_le (by omega), hlength, hrest, List.append_assoc]
        rfl
      · simp only [List.length_cons, List.length_replicate]
        omega
    · rw [if_neg hgranted] at hbytes
      refine Or.inl ⟨Env.mk e.string e.environ none e.NextEnvVar (e.EnvListCapacity * 2) e.errno,
        ?_, by omega, hbytes,
        rfl, rfl, rfl, by simp only; omega, hdouble⟩
      simp only [grow_list, hlast, if_pos hfull, hwrap, hbytes]
  · cases junk with
    | nil =>
      simp only [List.length_nil] at hsize
      omega
    | cons d junk =>
      refine Or.inr ⟨e, d, junk, ?_, ⟨hcells, hnext, by simpa using hsize, hfits⟩, rfl, rfl, hcap⟩
      rw [grow_list, hlast, if_neg hfull]

/-- `xsetenv_new` once `EnvList` is there and the string is allocated: the array cannot grow,
    or the string is added. -/
theorem xsetenv_new_ready {e₁ : Env} {c : Cell} {q : Nat} {r : Replies} (name value : List Char)
    (hcreate : create_list e r = some e₁) (htable : Table e₁ ptrs (c :: junk)) (hcap : CapacityOk e₁)
    (hq : r.envvar = some q) :
    (∃ e', xsetenv_new e r name value = .ok (e', -1) ∧ e₁.NextEnvVar + 1 = e₁.EnvListCapacity ∧
        list_cells r.grow (e₁.EnvListCapacity * 2) = none ∧ e'.EnvList = none ∧
        e'.environ = e₁.environ ∧
        e'.string = e₁.string ∧ CapacityOk e') ∨
      ∃ e', xsetenv_new e r name value = .ok (putenv e' r.putenv q) ∧ Owned e' (ptrs ++ [q]) ∧
        e'.environ = e₁.environ ∧ e'.string = Function.update e₁.string q (name ++ '=' :: value) ∧
        CapacityOk e' := by
  obtain ⟨e₂, hgrow, hfull, hrefused, hnone, henviron, hstring, hcap₂⟩ |
    ⟨e₂, d, junk', hgrow, htable₂, henviron, hstring, hcap₂⟩ := grow_list_cases r htable hcap
  · refine Or.inl ⟨{ e₂ with errno := .ENOMEM }, ?_, hfull, hrefused, hnone, henviron, hstring, hcap₂⟩
    simp only [xsetenv_new, hcreate, hq, hgrow]
  · obtain ⟨e', hadd, htable', henviron', hstring', hcapacity⟩ := add_envvar_spec htable₂ q name value
    refine Or.inr ⟨e', ?_, Or.inr ⟨junk', htable'⟩, henviron'.trans henviron, ?_, ?_⟩
    · simp only [xsetenv_new, hcreate, hq, hgrow, hadd, exec_bind_ok, exec_pure]
    · rw [hstring', hstring]
    · exact hcap₂.of_eq hcapacity

/-- What the allocation part of `xsetenv` can do: one of its three allocations fails, or the
    new string is in `EnvList` and goes to `putenv`. -/
theorem xsetenv_new_cases (r : Replies) (name value : List Char) (h : Owned e ptrs)
    (hcap : CapacityOk e) :
    (∃ e', xsetenv_new e r name value = .ok (e', -1) ∧ e'.environ = e.environ ∧
      e'.string = e.string ∧ CapacityOk e' ∧
      (e.EnvList = none ∧ list_cells r.list e.EnvListCapacity = none ∧ Owned e' ptrs ∨
        r.envvar = none ∧ Owned e' ptrs ∨
        r.envvar = none ∧ e.EnvList = none ∧ (list_cells r.list e.EnvListCapacity).isSome = true ∨
        e.NextEnvVar + 1 = e.EnvListCapacity ∧ list_cells r.grow (e.EnvListCapacity * 2) = none ∧
          e'.EnvList = none)) ∨
      ∃ q e', r.envvar = some q ∧ xsetenv_new e r name value = .ok (putenv e' r.putenv q) ∧
        Owned e' (ptrs ++ [q]) ∧ e'.environ = e.environ ∧
        e'.string = Function.update e.string q (name ++ '=' :: value) ∧ CapacityOk e' := by
  obtain ⟨hnone, hrefused, hcreate⟩ | ⟨⟨junk, htable⟩, hcreate⟩ |
    ⟨hnone, hgranted, e₁, c, d, junk, hcreate, htable, henviron, hstring, hcapacity⟩ :=
      create_list_cases r h hcap
  · refine Or.inl ⟨{ e with errno := .ENOMEM }, by simp only [xsetenv_new, hcreate], rfl, rfl, hcap,
      Or.inl ?_⟩
    exact ⟨hnone, hrefused, (errno_sameList e .ENOMEM).owned h⟩
  · cases hq : r.envvar with
    | none =>
      refine Or.inl ⟨{ e with errno := .ENOMEM }, by simp only [xsetenv_new, hcreate, hq], rfl, rfl,
        hcap, ?_⟩
      exact Or.inr (Or.inl ⟨rfl, (errno_sameList e .ENOMEM).owned h⟩)
    | some q =>
      obtain ⟨e', hrun, hfull, hrefused, hnone, henviron, hstring, hcap'⟩ |
        ⟨e', hrun, howned, henviron, hstring, hcap'⟩ :=
        xsetenv_new_ready name value hcreate htable hcap hq
      · exact Or.inl ⟨e', hrun, henviron, hstring, hcap',
          Or.inr (Or.inr (Or.inr ⟨hfull, hrefused, hnone⟩))⟩
      · exact Or.inr ⟨q, e', rfl, hrun, howned, henviron, hstring, hcap'⟩
  · have hcap₁ : CapacityOk e₁ := hcap.of_eq hcapacity
    cases hq : r.envvar with
    | none =>
      refine Or.inl ⟨{ e₁ with errno := .ENOMEM }, by simp only [xsetenv_new, hcreate, hq], henviron,
        hstring, hcap₁, ?_⟩
      exact Or.inr (Or.inr (Or.inl ⟨rfl, hnone, hgranted⟩))
    | some q =>
      obtain ⟨e', hrun, hfull, _, _, _, _, _⟩ | ⟨e', hrun, howned, henviron', hstring', hcap'⟩ :=
        xsetenv_new_ready name value hcreate htable hcap₁ hq
      · have hsize := htable.size
        have hnext := htable.next
        simp only [List.length_cons] at hsize
        omega
      · refine Or.inr ⟨q, e', rfl, hrun, howned, henviron'.trans henviron, ?_, hcap'⟩
        rw [hstring', hstring]

/-- An entry of the table that has to grow is reallocated and replaced in it. -/
theorem overwrite_entry_resized {r : Replies} {value existing_value : List Char} {p q : Nat}
    (name : List Char) (ep : Nat) (htable : Table e ptrs (.null :: junk)) (hp : p ∈ ptrs)
    (hvalue : after_equals (e.string p) = some existing_value)
    (hlong : existing_value.length ≤ value.length) (hq : r.resize = some q) :
    ∃ e', overwrite_entry e r name value ep p = .ok (.done ((putenv e' r.putenv q).1, 0)) ∧
      Table e' (ptrs.set (ptrs.idxOf p) q) (.null :: junk) ∧ e'.environ = e.environ.set ep q ∧
      e'.string = Function.update e.string q ((e.string p).take (name.length + 1) ++ value) ∧
      e'.EnvListCapacity = e.EnvListCapacity := by
  have hwalk := walk_EnvList_spec p htable
  rw [if_pos hp] at hwalk
  have hmoved := (environ_sameList e (e.environ.set ep q)).table htable
  obtain ⟨e₁, hset, htable₁, henviron, hstring, hcapacity⟩ :=
    hmoved.set_ptr (List.idxOf_lt_length_of_mem hp) q
  refine ⟨e₁.set_string q ((e.string p).take (name.length + 1) ++ value), ?_,
    (set_string_sameList e₁ q _).table htable₁, henviron, ?_, hcapacity⟩
  · simp only [overwrite_entry, hvalue, if_neg (not_lt.mpr hlong), hwalk, exec_bind_ok, hq, hset,
      exec_pure]
  · rw [Env.set_string, hstring]

end List

end tlpi.setenv
