import Tlpi.Setenv.Entries
import Tlpi.Setenv.Table

namespace tlpi.setenv

/-- Every entry of one of the names is among these pointers, and at one place only in the
    environment. -/
def OwnEntries (N : Set (List Char)) (e : Env) (ptrs : List Nat) : Prop :=
  ∀ n ∈ N, ∀ p ∈ e.environ, n.isPrefixOf (e.string p) = true → p ∈ ptrs ∧ e.environ.count p = 1

/-- The environment stands for this map on the names, shows the other variables as they were
    at the start, and has the entries of the names from `EnvList`. -/
structure Refines (N : Set (List Char)) (start : Env) (vars : List Char → Option (List Char))
    (e : Env) : Prop where
  capacity : CapacityOk e
  entries : Represents N vars (view e)
  others : ∀ m, m ∉ N → '=' ∉ m → getenv e m = getenv start m
  owned : ∃ ptrs, Owned e ptrs ∧ OwnEntries N e ptrs

section Strings

variable {e e' : Env} {name value : List Char} {q : Nat} {front back : List Nat} {str : List Char}

theorem blanked_blanked (name str : List Char) : blanked name (blanked name str) = blanked name str := by
  unfold blanked
  split
  · split <;> rfl
  · rfl

theorem blank_string (name : List Char) (e : Env) (p x : Nat) :
    (blank name e p).string x = if x = p then blanked name (e.string x) else e.string x := by
  unfold blank blanked Env.set_string
  by_cases hx : x = p
  · subst hx
    split <;> simp
  · split <;> simp [hx]

theorem blank_all_string (name : List Char) (ps : List Nat) (e : Env) (x : Nat) :
    (ps.foldl (blank name) e).string x = if x ∈ ps then blanked name (e.string x) else e.string x := by
  induction ps generalizing e with
  | nil => rfl
  | cons p ps ih =>
    rw [List.foldl_cons, ih, blank_string]
    by_cases hx : x = p
    · simp [hx, blanked_blanked]
    · simp [hx]

/-- Unsetting a variable blanks its entries and no others. -/
theorem xunsetenv_eq (hname : invalid_name name = false) :
    ∃ e', xunsetenv e (some name) = (e', 0) ∧ SameList e e' ∧ e'.environ = e.environ ∧
      ∀ x ∈ e.environ, e'.string x = blanked name (e.string x) := by
  obtain ⟨hsame, henviron⟩ := blank_all_fields name e.environ e
  refine ⟨e.environ.foldl (blank name) e, by simp [xunsetenv, hname], hsame, henviron, fun x hx => ?_⟩
  rw [blank_all_string, if_pos hx]

theorem view_split {p : Nat} (hsplit : e.environ = front ++ p :: back) :
    view e = front.map e.string ++ e.string p :: back.map e.string := by
  rw [view, hsplit, List.map_append, List.map_cons]

/-- A string written at an address that occurs once in the environment. -/
theorem view_update {s : Nat → List Char} (henviron : e'.environ = front ++ q :: back)
    (hstring : e'.string = Function.update s q str) (hfront : q ∉ front) (hback : q ∉ back) :
    view e' = front.map s ++ str :: back.map s := by
  have hother {l : List Nat} (hl : q ∉ l) : l.map (Function.update s q str) = l.map s := by
    refine List.map_congr_left fun p hp => Function.update_of_ne ?_ _ _
    rintro rfl
    exact hl hp
  rw [view_split henviron, hstring, hother hfront, hother hback, Function.update_self]

/-- `putenv` of a variable that is not set adds an entry. -/
theorem putenv_unset (hq : e.string q = entry name value) (hname : '=' ∉ name)
    (hunset : ∀ p ∈ e.environ, entry_value name (e.string p) = none) :
    putenv e true q = ({ e with environ := e.environ ++ [q] }, 0) := by
  have hequals : '=' ∈ entry name value := by simp [entry]
  have hfind : e.environ.findIdx? (fun p => (entry_value name (e.string p)).isSome) = none := by
    rw [List.findIdx?_eq_none_iff]
    intro p hp
    rw [hunset p hp]
    rfl
  simp only [putenv, hq, takeWhile_entry hname, if_pos hequals, hfind]
  rfl

/-- `putenv` of the first entry of its name changes nothing. -/
theorem putenv_same (hq : e.string q = entry name value) (hname : '=' ∉ name)
    (henviron : e.environ = front ++ q :: back)
    (hunset : ∀ p ∈ front, entry_value name (e.string p) = none) : putenv e true q = (e, 0) := by
  have hequals : '=' ∈ entry name value := by simp [entry]
  have hfind : e.environ.findIdx? (fun p => (entry_value name (e.string p)).isSome) =
    some front.length := by
    rw [henviron, List.findIdx?_append, List.findIdx?_cons, hq, entry_value_self]
    have hnone : front.findIdx? (fun p => (entry_value name (e.string p)).isSome) = none := by
      rw [List.findIdx?_eq_none_iff]
      intro p hp
      rw [hunset p hp]
      rfl
    simp [hnone]
  simp only [putenv, hq, takeWhile_entry hname, if_pos hequals, hfind]
  have hset : e.environ.set front.length q = e.environ := by simp [henviron]
  rw [hset]
  rfl

end Strings

/-- All allocations that a call makes succeed, and give addresses that are not in the
    environment; `realloc` of an entry may also leave it where it is. -/
def Succeeds (N : Set (List Char)) (e : Env) : Call → Prop
  | .xsetenv (some name) _ _ r =>
    name ∈ N ∧ (e.EnvList = none → (list_cells r.list e.EnvListCapacity).isSome = true) ∧
      (e.NextEnvVar + 1 = e.EnvListCapacity →
        (list_cells r.grow (e.EnvListCapacity * 2)).isSome = true) ∧
      (∃ q ∈ r.envvar, q ∉ e.environ) ∧
      (∃ q ∈ r.resize, q ∈ e.environ → name.isPrefixOf (e.string q) = true) ∧ r.putenv = true
  | .xunsetenv (some name) => name ∈ N
  | _ => False

section Refine

variable {N : Set (List Char)} {start e : Env} {vars : List Char → Option (List Char)}
    {name value : List Char}

theorem Refines.getenv_eq (h : Refines N start vars e) (hname : name ∈ N) : getenv e name = vars name := by
  rw [getenv_eq_lookup, h.entries.lookup_eq hname]

/-- Unsetting a variable removes it from the map. -/
theorem Refines.unset (h : Refines N start vars e) (hN : PrefixFree N) (hname : name ∈ N) :
    ∃ e', xunsetenv e (some name) = (e', 0) ∧ Refines N start (Function.update vars name none) e' := by
  obtain ⟨e', hrun, hsame, henviron, hstring⟩ := xunsetenv_eq (e := e) (hN.valid name hname)
  have hview : view e' = (view e).map (blanked name) := by
    rw [view, view, henviron, List.map_map]
    exact List.map_congr_left hstring
  obtain ⟨ptrs, howned, hptrs⟩ := h.owned
  refine ⟨e', hrun, hsame.capacityOk h.capacity, ?_, fun m hm hequals => ?_, ptrs, hsame.owned howned,
    fun n hn p hp hstarts => ?_⟩
  · rw [hview]
    exact h.entries.blank hN hname
  · have hne : m ≠ name := (ne_of_mem_of_not_mem hname hm).symm
    rw [getenv_eq_lookup, hview, h.entries.lookup_blank hN hname hequals hne, ← getenv_eq_lookup]
    exact h.others m hm hequals
  · rw [henviron] at hp ⊢
    rw [hstring p hp, blanked] at hstarts
    split at hstarts
    · rw [hN.not_isPrefixOf_nil hn] at hstarts
      cases hstarts
    · exact hptrs n hn p hp hstarts

/-- A variable that is not set gets a new entry. -/
theorem Refines.add {q : Nat} {ptrs : List Nat} {e₁ : Env} (h : Refines N start vars e)
    (hN : PrefixFree N) (hname : name ∈ N) (hunset : vars name = none) (hq : q ∉ e.environ)
    (howned : Owned e₁ (ptrs ++ [q])) (hptrs : OwnEntries N e ptrs) (henviron : e₁.environ = e.environ)
    (hstring : e₁.string = Function.update e.string q (entry name value)) (hcap : CapacityOk e₁) :
    ∃ e', putenv e₁ true q = (e', 0) ∧ Refines N start (Function.update vars name (some value)) e' := by
  have hequals := hN.no_equals hname
  have hsame (p : Nat) (hp : p ∈ e.environ) : e₁.string p = e.string p := by
    rw [hstring, Function.update_of_ne]
    rintro rfl
    exact hq hp
  have hput := putenv_unset (e := e₁) (q := q) (by rw [hstring, Function.update_self]) hequals (by
    intro p hp
    rw [henviron] at hp
    have hget := h.getenv_eq hname
    rw [hunset] at hget
    rw [hsame p hp]
    exact List.findSome?_eq_none_iff.mp hget p hp)
  have hview : view { e₁ with environ := e₁.environ ++ [q] } =
      e.environ.map e.string ++ entry name value :: [].map e.string :=
    view_update (by rw [henviron]) hstring hq (by simp)
  have hview : view { e₁ with environ := e₁.environ ++ [q] } = view e ++ [entry name value] := hview
  refine ⟨_, hput, hcap, ?_, fun m hm hm' => ?_, ptrs ++ [q], (environ_sameList e₁ _).owned howned,
    fun n hn p hp hstarts => ?_⟩
  · rw [hview]
    exact h.entries.append hN hname hunset value
  · have hne : m ≠ name := (ne_of_mem_of_not_mem hname hm).symm
    rw [getenv_eq_lookup, hview, lookup_append hm' hequals hne, ← getenv_eq_lookup]
    exact h.others m hm hm'
  · simp only [henviron, List.mem_append, List.mem_singleton] at hp ⊢
    obtain hp | rfl := hp
    · have hstarts : n.isPrefixOf (e.string p) = true := by
        rw [← hsame p hp]
        exact hstarts
      obtain ⟨hmem, hcount⟩ := hptrs n hn p hp hstarts
      have hpq : p ≠ q := by
        rintro rfl
        exact hq hp
      exact ⟨Or.inl hmem, by simp [List.count_append, hcount, Ne.symm hpq]⟩
    · exact ⟨Or.inr rfl, by simp [List.count_append, List.count_eq_zero.mpr hq]⟩

theorem Refines.set_unset {r : Replies} {overwrite : Int} (h : Refines N start vars e)
    (hN : PrefixFree N) (hname : name ∈ N) (hunset : vars name = none)
    (hok : Succeeds N e (.xsetenv (some name) value overwrite r)) :
    ∃ e', xsetenv_new e r name value = .ok (e', 0) ∧
      Refines N start (Function.update vars name (some value)) e' := by
  obtain ⟨_, hlist, hgrow, ⟨q, hq, hfresh⟩, _, hputenv⟩ := hok
  obtain ⟨ptrs, howned, hptrs⟩ := h.owned
  obtain ⟨e', _, _, _, _, hwhy⟩ | ⟨q', e₁, hq', hrun, howned₁, henviron, hstring, hcap⟩ :=
    xsetenv_new_cases r name value howned h.capacity
  · exfalso
    obtain ⟨hnone, hrefused, _⟩ | ⟨hnone, _⟩ | ⟨hnone, _⟩ | ⟨hfull, hrefused, _⟩ := hwhy
    · have hgranted := hlist hnone
      rw [hrefused] at hgranted
      cases hgranted
    · rw [hq] at hnone
      cases hnone
    · rw [hq] at hnone
      cases hnone
    · have hgranted := hgrow hfull
      rw [hrefused] at hgranted
      cases hgranted
  · obtain rfl : q = q' := Option.some.inj (hq.symm.trans hq')
    obtain ⟨e', hput, hrefines⟩ := h.add hN hname hunset hfresh howned₁ hptrs henviron hstring hcap
    refine ⟨e', ?_, hrefines⟩
    rw [hrun, hputenv, hput]

/-- The place of a set variable in the environment. -/
structure EntryAt (e : Env) (ptrs : List Nat) (name v : List Char) (front : List Nat) (p : Nat)
    (back : List Nat) : Prop where
  split : e.environ = front ++ p :: back
  string : e.string p = entry name v
  not_front : p ∉ front
  not_back : p ∉ back
  owned : p ∈ ptrs
  others : ∀ x ∈ front ++ back, name.isPrefixOf (e.string x) = false

/-- The search of `xsetenv` for a set variable finds its entry. -/
theorem Refines.find_entry {ptrs : List Nat} {v : List Char} (r : Replies) (value : List Char)
    (h : Refines N start vars e) (hname : name ∈ N) (hset : vars name = some v)
    (hptrs : OwnEntries N e ptrs) :
    ∃ front p back, EntryAt e ptrs name v front p back ∧
      xsetenv_existing e r name value = overwrite_entry e r name value front.length p := by
  obtain ⟨ep, hfind⟩ := findIdx_isSome_of_getenv ((h.getenv_eq hname).trans hset)
  obtain ⟨front, p, back, hsplit, rfl, hstarts, _⟩ := exists_of_findIdx hfind
  have hmem : p ∈ e.environ := by simp [hsplit]
  obtain ⟨v', hv', hp⟩ := h.entries.of_mem hname (List.mem_map_of_mem hmem) hstarts
  obtain rfl : v = v' := Option.some.inj (hset.symm.trans hv')
  obtain ⟨hpptrs, hcount⟩ := hptrs name hname p hmem hstarts
  rw [hsplit, List.count_append, List.count_cons_self] at hcount
  have hview := view_split hsplit
  rw [hp] at hview
  have hentries := h.entries
  rw [hview] at hentries
  obtain ⟨hothersFront, hothersBack⟩ := hentries.alone hname
  refine ⟨front, p, back, ⟨hsplit, hp, List.count_eq_zero.mp (by omega),
    List.count_eq_zero.mp (by omega), hpptrs, fun x hx => ?_⟩, ?_⟩
  · rw [Bool.eq_false_iff]
    obtain hx | hx := List.mem_append.mp hx
    · exact List.filter_eq_nil_iff.mp hothersFront _ (List.mem_map_of_mem hx)
    · exact List.filter_eq_nil_iff.mp hothersBack _ (List.mem_map_of_mem hx)
  · have hcell : e.environ.getD front.length 0 = p := by simp [hsplit]
    simp only [xsetenv_existing, hfind, hcell]

/-- The entry of a variable is written again, at its address or at another one. -/
theorem Refines.rewrite {front back ptrs ptrs' : List Nat} {p q : Nat} {v : List Char} {e' : Env}
    (h : Refines N start vars e) (hN : PrefixFree N) (hname : name ∈ N)
    (hentry : EntryAt e ptrs name v front p back)
    (hptrs : OwnEntries N e ptrs)
    (henviron : e'.environ = front ++ q :: back)
    (hstring : e'.string = Function.update e.string q (entry name value))
    (hqfront : q ∉ front) (hqback : q ∉ back) (howned : Owned e' ptrs')
    (hkeep : ∀ x ∈ ptrs, x ≠ p → x ∈ ptrs')
    (hq : q ∈ ptrs') (hcap : CapacityOk e') :
    Refines N start (Function.update vars name (some value)) e' := by
  have hequals := hN.no_equals hname
  have hsplit := hentry.split
  have hview := view_split hsplit
  rw [hentry.string] at hview
  have hview' := view_update henviron hstring hqfront hqback
  have hentries := h.entries
  rw [hview] at hentries
  refine ⟨hcap, ?_, fun m hm hm' => ?_, ptrs', howned, fun n hn x hx hstarts => ?_⟩
  · rw [hview']
    exact hentries.replace hN hname value
  · have hne : m ≠ name := (ne_of_mem_of_not_mem hname hm).symm
    rw [getenv_eq_lookup, hview', lookup_replace hm' hequals hne, ← hview, ← getenv_eq_lookup]
    exact h.others m hm hm'
  · by_cases hxq : x = q
    · subst hxq
      exact ⟨hq, by simp [henviron, List.count_append, List.count_eq_zero.mpr hqfront,
        List.count_eq_zero.mpr hqback]⟩
    · rw [hstring, Function.update_of_ne hxq] at hstarts
      have hmem : x ∈ front ∨ x ∈ back := by
        rw [henviron] at hx
        simpa [hxq] using hx
      have hxp : x ≠ p := by
        rintro rfl
        exact hmem.elim hentry.not_front hentry.not_back
      obtain ⟨hxptrs, hcount⟩ := hptrs n hn x (by rw [hsplit]; simp; tauto) hstarts
      refine ⟨hkeep x hxptrs hxp, ?_⟩
      rw [hsplit] at hcount
      rw [henviron]
      simpa [List.count_append, List.count_cons, Ne.symm hxp, Ne.symm hxq] using hcount

theorem EntryAt.after_equals_eq {front back ptrs : List Nat} {p : Nat} {v : List Char}
    (h : EntryAt e ptrs name v front p back) (hname : '=' ∉ name) :
    after_equals (e.string p) = some v := by
  rw [h.string, after_equals_entry hname]

theorem EntryAt.overwritten {front back ptrs : List Nat} {p : Nat} {v : List Char}
    (h : EntryAt e ptrs name v front p back) (value : List Char) :
    (e.string p).take (name.length + 1) ++ value = entry name value := by
  rw [h.string, take_entry]
  simp [entry]

/-- An entry that has to grow is found by `putenv` in its place. -/
theorem overwrite_entry_moved {front back ptrs : List Nat} {p q : Nat} {v : List Char} {r : Replies}
    {junk : List Cell} (hname : '=' ∉ name) (hentry : EntryAt e ptrs name v front p back)
    (htable : Table e ptrs (.null :: junk)) (hlong : v.length ≤ value.length) (hq : r.resize = some q)
    (hqfront : q ∉ front) (hputenv : r.putenv = true) :
    ∃ e', overwrite_entry e r name value front.length p = .ok (.done (e', 0)) ∧
      Table e' (ptrs.set (ptrs.idxOf p) q) (.null :: junk) ∧ e'.environ = front ++ q :: back ∧
      e'.string = Function.update e.string q (entry name value) ∧
      e'.EnvListCapacity = e.EnvListCapacity := by
  obtain ⟨e', hrun, htable', henviron, hstring, hcapacity⟩ :=
    overwrite_entry_resized name front.length htable hentry.owned
      (hentry.after_equals_eq hname) hlong hq
  rw [hentry.overwritten] at hstring
  have henviron : e'.environ = front ++ q :: back := by
    rw [henviron]
    simp [hentry.split]
  have hput := putenv_same (e := e') (by rw [hstring, Function.update_self]) hname henviron (by
    intro x hx
    have hxq : x ≠ q := ne_of_mem_of_not_mem hx hqfront
    rw [hstring, Function.update_of_ne hxq]
    exact entry_value_eq_none_of_not_isPrefixOf (hentry.others x (List.mem_append_left _ hx)))
  refine ⟨e', ?_, htable', henviron, hstring, hcapacity⟩
  rw [hrun, hputenv, hput]

/-- A variable that is set is overwritten, in place or in a larger string that takes the
    place of the old one in `EnvList`. -/
theorem Refines.set_again {r : Replies} {overwrite : Int} {v : List Char} (h : Refines N start vars e)
    (hN : PrefixFree N) (hname : name ∈ N) (hset : vars name = some v)
    (hok : Succeeds N e (.xsetenv (some name) value overwrite r)) :
    ∃ e', xsetenv_existing e r name value = .ok (.done (e', 0)) ∧
      Refines N start (Function.update vars name (some value)) e' := by
  obtain ⟨_, _, _, _, ⟨q, hq, hfresh⟩, hputenv⟩ := hok
  obtain ⟨ptrs, howned, hptrs⟩ := h.owned
  have hequals := hN.no_equals hname
  obtain ⟨front, p, back, hentry, hexisting⟩ := h.find_entry r value hname hset hptrs
  rw [hexisting]
  by_cases hshort : value.length < v.length
  · refine ⟨e.set_string p (entry name value), ?_, ?_⟩
    · simp only [overwrite_entry, hentry.after_equals_eq hequals, if_pos hshort, hentry.overwritten]
    · exact h.rewrite hN hname hentry hptrs hentry.split rfl hentry.not_front hentry.not_back
        ((set_string_sameList e p _).owned howned) (fun _ hx _ => hx) hentry.owned h.capacity
  · have hqout : q ∉ front ++ back := by
      intro hmem
      have hagain := hfresh (by rw [hentry.split]; simp at hmem ⊢; tauto)
      rw [hentry.others q hmem] at hagain
      cases hagain
    obtain ⟨hqfront, hqback⟩ : q ∉ front ∧ q ∉ back := by simpa using hqout
    obtain ⟨hnone, rfl⟩ | ⟨junk, htable⟩ := howned
    · cases hentry.owned
    · obtain ⟨e', hrun, htable', henviron, hstring, hcapacity⟩ :=
        overwrite_entry_moved hequals hentry htable (not_lt.mp hshort) hq hqfront hputenv
      have hidx := List.idxOf_lt_length_of_mem hentry.owned
      refine ⟨e', hrun, h.rewrite hN hname hentry hptrs henviron hstring hqfront hqback
        (Or.inr ⟨junk, htable'⟩)
        (fun x hx hxp => ?_) (List.mem_set hidx q) ?_⟩
      · obtain ⟨j, hj, rfl⟩ := List.mem_iff_getElem.mp hx
        have hne : ptrs.idxOf p ≠ j := by
          rintro rfl
          exact hxp (List.getElem_idxOf hj)
        rw [List.mem_iff_getElem]
        exact ⟨j, by simpa using hj, List.getElem_set_ne hne _⟩
      · exact h.capacity.of_eq hcapacity

end Refine

instance (N : Set (List Char)) [DecidablePred (· ∈ N)] (e : Env) (call : Call) :
    Decidable (Succeeds N e call) :=
  match call with
  | .xsetenv (some _) _ _ _ => inferInstanceAs (Decidable (_ ∧ _ ∧ _ ∧ _ ∧ _ ∧ _))
  | .xsetenv none _ _ _ => isFalse id
  | .xunsetenv (some name) => inferInstanceAs (Decidable (name ∈ N))
  | .xunsetenv none => isFalse id

/-- What the two functions are for: a variable is set if it is not or if it may be
    overwritten, and it is removed. -/
def apply_call (vars : List Char → Option (List Char)) : Call → List Char → Option (List Char)
  | .xsetenv (some name) value overwrite _ =>
    if (vars name).isSome = true ∧ overwrite = 0 then vars else Function.update vars name (some value)
  | .xunsetenv (some name) => Function.update vars name none
  | _ => vars

/-- The environment and the map that it stands for, side by side, with the last return
    value. -/
structure Lockstep where
  env : Env
  ret : Int
  vars : List Char → Option (List Char)

def exec_lockstep (c : Lockstep) (call : Call) : Exec Lockstep := do
  let (env, ret) ← exec c.env call
  return ⟨env, ret, apply_call c.vars call⟩

/-- An environment of `NAME=VALUE` entries in which no name begins with one of the given
    ones, before the first call. -/
structure Initial (N : Set (List Char)) (e : Env) : Prop where
  entries : ∀ p ∈ e.environ, ∃ name value, e.string p = entry name value ∧ '=' ∉ name ∧
    ∀ n ∈ N, ¬ n <+: name
  list : e.EnvList = none
  capacity : e.EnvListCapacity = 1024

/-- The call has returned 0, the names look up as in the map and all others as before, and
    the walk along `EnvList` has a list to start from and finds every entry of the names. -/
structure Agrees (N : Set (List Char)) (start : Env) (c : Lockstep) : Prop where
  ret : c.ret = 0
  vars : ∀ n ∈ N, getenv c.env n = c.vars n
  others : ∀ m, m ∉ N → '=' ∉ m → getenv c.env m = getenv start m
  walk : ∀ n ∈ N, ∀ p ∈ c.env.environ, n.isPrefixOf (c.env.string p) = true →
    c.env.EnvList ≠ none ∧ ∃ np, walk_EnvList c.env p = .ok (some np)

section Lockstep

variable {N : Set (List Char)} {start e : Env} {c : Lockstep}

/-- What a name begins in an entry it begins in the name of the entry. -/
theorem isPrefix_name_of_entry {n name value : List Char} (hn : '=' ∉ n) (h : n <+: entry name value) :
    n <+: name := by
  obtain ⟨rest, hrest⟩ := h
  obtain ⟨tail, hname, _⟩ | ⟨tail, hlonger, htail⟩ := List.append_eq_append_iff.mp hrest
  · exact ⟨tail, hname.symm⟩
  · cases tail with
    | nil => exact ⟨[], by simpa using hlonger⟩
    | cons c tail =>
      rw [List.cons_append, List.cons.injEq] at htail
      exact absurd (by simp [hlonger, ← htail.1]) hn

theorem Initial.refines (hN : PrefixFree N) (h : Initial N e) : Refines N e (fun _ => none) e := by
  have hnone (n : List Char) (hn : n ∈ N) (p : Nat) (hp : p ∈ e.environ) :
    ¬ n.isPrefixOf (e.string p) = true := by
    obtain ⟨name, value, hentry, _, hforeign⟩ := h.entries p hp
    rw [ List.isPrefixOf_iff_prefix, hentry]
    exact fun hstarts => hforeign n hn (isPrefix_name_of_entry (hN.no_equals hn) hstarts)
  refine ⟨?_, fun n hn => ?_, fun _ _ _ => rfl, [], Or.inl ⟨h.list, rfl⟩, fun n hn p hp hstarts => ?_⟩
  · unfold CapacityOk
    rw [h.capacity]
    decide
  · apply List.filter_eq_nil_iff.mpr
    intro str hstr
    obtain ⟨p, hp, rfl⟩ := List.mem_map.mp hstr
    exact hnone n hn p hp
  · exact absurd hstarts (hnone n hn p hp)

theorem Refines.agrees (h : Refines N start c.vars c.env) (hret : c.ret = 0) : Agrees N start c := by
  obtain ⟨ptrs, howned, hptrs⟩ := h.owned
  refine ⟨hret, fun n hn => h.getenv_eq hn, h.others, fun n hn p hp hstarts => ?_⟩
  obtain ⟨hmem, _⟩ := hptrs n hn p hp hstarts
  obtain ⟨_, rfl⟩ | ⟨junk, htable⟩ := howned
  · cases hmem
  · refine ⟨by simp [htable.cells], ptrs.idxOf p, ?_⟩
    rw [walk_EnvList_spec p htable, if_pos hmem]

theorem xsetenv_refines {vars : List Char → Option (List Char)} {name : List Char} (value : List Char)
    (overwrite : Int) (r : Replies) (hN : PrefixFree N) (h : Refines N start vars e)
    (hok : Succeeds N e (.xsetenv (some name) value overwrite r)) :
    ∃ e', xsetenv e r (some name) value overwrite = .ok (e', 0) ∧
      Refines N start (apply_call vars (.xsetenv (some name) value overwrite r)) e' := by
  have hname : name ∈ N := hok.1
  have hvalid := hN.valid name hname
  have hget := h.getenv_eq hname
  cases hvars : vars name with
  | none =>
    rw [hvars] at hget
    obtain ⟨e', hrun, hrefines⟩ := h.set_unset hN hname hvars hok
    refine ⟨e', by simp [xsetenv, hvalid, hget, hrun], ?_⟩
    simpa [apply_call, hvars] using hrefines
  | some v =>
    rw [hvars] at hget
    by_cases hover : overwrite = 0
    · refine ⟨e, by simp [xsetenv, hvalid, hget, hover], ?_⟩
      simpa [apply_call, hvars, hover] using h
    · obtain ⟨e', hrun, hrefines⟩ := h.set_again hN hname hvars hok
      refine ⟨e', by simp [xsetenv, hvalid, hget, hover, hrun], ?_⟩
      simpa [apply_call, hover] using hrefines

theorem exec_lockstep_refines (call : Call) (hN : PrefixFree N)
    (h : c.ret = 0 ∧ Refines N start c.vars c.env) (hok : Succeeds N c.env call) :
    ∃ c', exec_lockstep c call = .ok c' ∧ c'.ret = 0 ∧ Refines N start c'.vars c'.env := by
  cases call with
  | xsetenv name value overwrite r =>
    cases name with
    | none => exact hok.elim
    | some name =>
      obtain ⟨e', hrun, hrefines⟩ := xsetenv_refines value overwrite r hN h.2 hok
      refine ⟨⟨e', 0, apply_call c.vars (.xsetenv (some name) value overwrite r)⟩, ?_, rfl, hrefines⟩
      simp only [exec_lockstep, exec, hrun, exec_bind_ok, exec_pure]
  | xunsetenv name =>
    cases name with
    | none => exact hok.elim
    | some name =>
      obtain ⟨e', hrun, hrefines⟩ := h.2.unset hN hok
      refine ⟨⟨e', 0, apply_call c.vars (.xunsetenv (some name))⟩, ?_, rfl, hrefines⟩
      simp only [exec_lockstep, exec, hrun, exec_bind_ok, exec_pure]

/-- On names of which none begins another, and that begin no name of the environment, the two
    functions implement a map from names to values, as long as no allocation fails. -/
theorem setenv_refines_map (N : Set (List Char)) (e : Env) (calls : List Call) (hN : PrefixFree N)
    (hinit : Initial N e)
    (hok : Along exec_lockstep (fun c call => Succeeds N c.env call) ⟨e, 0, fun _ => none⟩ calls) :
    Always exec_lockstep (Agrees N e) ⟨e, 0, fun _ => none⟩ calls :=
  Always.of_invariant (fun _ call => exec_lockstep_refines call hN) (fun _ h => h.2.agrees h.1)
    ⟨rfl, hinit.refines hN⟩ hok

end Lockstep

/-- Two names that begin no others. -/
def letters : Set (List Char) := {n | n ∈ [['A'], ['B']]}

instance : DecidablePred (· ∈ letters) := fun n => inferInstanceAs (Decidable (n ∈ [['A'], ['B']]))

theorem letters_prefixFree : PrefixFree letters where
  valid := by
    intro n hn
    obtain rfl | rfl : n = ['A'] ∨ n = ['B'] := by simpa [letters] using hn
    · decide
    · decide
  free := by
    intro n hn m hm hstarts
    obtain rfl | rfl : n = ['A'] ∨ n = ['B'] := by simpa [letters] using hn
    all_goals
      obtain rfl | rfl : m = ['A'] ∨ m = ['B'] := by simpa [letters] using hm
      all_goals
        revert hstarts
        decide

/-- The environment `HOME=/`. -/
def homeEnv : Env where
  string := fun _ => entry ['H', 'O', 'M', 'E'] ['/']
  environ := [1]
  EnvList := none
  NextEnvVar := 0
  EnvListCapacity := 1024
  errno := .other 0

theorem homeEnv_initial : Initial letters homeEnv where
  entries := by
    intro p _
    refine ⟨['H', 'O', 'M', 'E'], ['/'], rfl, by decide, fun n hn => ?_⟩
    obtain rfl | rfl : n = ['A'] ∨ n = ['B'] := by simpa [letters] using hn
    · decide
    · decide
  list := rfl
  capacity := rfl

/-- A variable is set, grows, shrinks, is kept, is unset and set again, next to another one. -/
def letterCalls : List Call :=
  [.xsetenv (some ['A']) ['1'] 0 ⟨true, true, some 2, some 3, true⟩,
    .xsetenv (some ['A']) ['1', '2'] 1 ⟨true, true, some 4, some 3, true⟩,
    .xsetenv (some ['B']) [] 1 ⟨true, true, some 4, some 5, true⟩,
    .xsetenv (some ['A']) ['3'] 1 ⟨true, true, some 5, some 5, true⟩,
    .xsetenv (some ['A']) ['4'] 0 ⟨true, true, some 5, some 5, true⟩,
    .xunsetenv (some ['A']),
    .xsetenv (some ['A']) ['5', '='] 0 ⟨true, true, some 6, some 7, true⟩,
    .xsetenv (some ['B']) ['6'] 1 ⟨true, true, some 8, some 4, true⟩]

theorem letterCalls_agree :
    Always exec_lockstep (Agrees letters homeEnv) ⟨homeEnv, 0, fun _ => none⟩ letterCalls :=
  setenv_refines_map letters homeEnv letterCalls letters_prefixFree homeEnv_initial (by decide +kernel)

end tlpi.setenv
