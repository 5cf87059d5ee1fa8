import Mathlib.Data.List.Basic
import Mathlib.Data.Set.Basic
import Tlpi.Setenv.Model

namespace tlpi.setenv

/-- The environment as a list of strings. -/
def view (e : Env) : List (List Char) := e.environ.map e.string

/-- The value of the first entry of a name. -/
def lookup (name : List Char) (entries : List (List Char)) : Option (List Char) :=
  entries.findSome? (entry_value name)

/-- `NAME=VALUE`. -/
def entry (name value : List Char) : List Char := name ++ '=' :: value

theorem getenv_eq_lookup (e : Env) (name : List Char) : getenv e name = lookup name (view e) := by
  rw [getenv, lookup, view, List.findSome?_map]
  rfl

section Search

variable {e : Env} {name : List Char}

theorem exists_of_findIdx {A : Type} {f : A → Bool} {l : List A} {i : Nat} (h : l.findIdx? f = some i) :
    ∃ front a back, l = front ++ a :: back ∧ i = front.length ∧ f a = true ∧ ∀ b ∈ front, f b = false := by
  obtain ⟨hi, hfound, hbefore⟩ := List.findIdx?_eq_some_iff_getElem.mp h
  refine ⟨l.take i, l[i], l.drop (i + 1), ?_, ?_, hfound, fun b hb => ?_⟩
  · rw [List.getElem_cons_drop, List.take_append_drop]
  · rw [List.length_take]
    omega
  · obtain ⟨j, hj, rfl⟩ := List.mem_take_iff_getElem.mp hb
    simpa using hbefore j (by omega)

theorem after_equals_eq_none {str : List Char} (h : after_equals str = none) : '=' ∉ str := by
  induction str with
  | nil => simp
  | cons c str ih =>
    rw [after_equals] at h
    split at h
    · cases h
    · rename_i hc
      simpa [Ne.symm hc] using ih h

/-- A variable that is set has an entry that begins with its name. -/
theorem findIdx_isSome_of_getenv {v : List Char} (h : getenv e name = some v) :
    ∃ ep, e.environ.findIdx? (fun p => name.isPrefixOf (e.string p)) = some ep := by
  obtain ⟨p, hp, hvalue⟩ := List.exists_of_findSome?_eq_some h
  rw [← Option.isSome_iff_exists, List.findIdx?_isSome, List.any_eq_true]
  refine ⟨p, hp, ?_⟩
  unfold entry_value at hvalue
  split at hvalue
  · rename_i hstarts
    rw [ List.isPrefixOf_iff_prefix] at hstarts ⊢
    exact (List.prefix_append name ['=']).trans hstarts
  · cases hvalue

/-- A call that may overwrite its variable comes to the first entry that begins with the name. -/
theorem xsetenv_at_first {r : Replies} {value : List Char} {overwrite : Int} {front back : List Nat}
    {p : Nat} (hsplit : e.environ = front ++ p :: back) (hstarts : name.isPrefixOf (e.string p) = true)
    (hbefore : ∀ x ∈ front, name.isPrefixOf (e.string x) = false) (hname : invalid_name name = false)
    (hset : (getenv e name).isSome = true) (hover : overwrite ≠ 0) :
    xsetenv e r (some name) value overwrite = (do
      match ← overwrite_entry e r name value front.length p with
      | .done result => return result
      | .cont e => xsetenv_new e r name value) := by
  obtain ⟨w, hw⟩ := Option.isSome_iff_exists.mp hset
  have hfind : e.environ.findIdx? (fun p => name.isPrefixOf (e.string p)) = some front.length := by
    rw [hsplit, List.findIdx?_append, List.findIdx?_cons, hstarts, List.findIdx?_eq_none_iff.mpr hbefore]
    simp
  have hcell : e.environ.getD front.length 0 = p := by simp [hsplit]
  have hexisting : xsetenv_existing e r name value = overwrite_entry e r name value front.length p := by
    simp only [xsetenv_existing, hfind, hcell]
  simp only [xsetenv, hname, hw, hover, hexisting, if_false]
  rfl

end Search

section Entry

variable {n m value : List Char}

theorem entry_value_eq_none_of_not_isPrefixOf {str : List Char} (h : n.isPrefixOf str = false) :
    entry_value n str = none := by
  rw [entry_value, if_neg]
  intro hstarts
  rw [ List.isPrefixOf_iff_prefix] at hstarts
  have hshort := (List.prefix_append n ['=']).trans hstarts
  rw [← List.isPrefixOf_iff_prefix, h] at hshort
  cases hshort

theorem entry_value_self (n value : List Char) : entry_value n (entry n value) = some value := by
  have hstarts : (n ++ ['=']).isPrefixOf (entry n value) = true := by
    rw [ List.isPrefixOf_iff_prefix, entry]
    exact ⟨value, by simp⟩
  rw [entry_value, if_pos hstarts]
  simp [entry]

/-- An entry of a name is made of the name and the value. -/
theorem eq_entry_of_entry_value {str v : List Char} (h : entry_value n str = some v) :
    str = entry n v := by
  unfold entry_value at h
  split at h
  · rename_i hstarts
    rw [ List.isPrefixOf_iff_prefix] at hstarts
    obtain ⟨rest, rfl⟩ := hstarts
    have hdrop : (n ++ ['='] ++ rest).drop (n.length + 1) = rest := List.drop_left' (by simp)
    rw [hdrop, Option.some.injEq] at h
    simp [entry, h]
  · cases h

theorem after_equals_entry (h : '=' ∉ n) : after_equals (entry n value) = some value := by
  induction n with
  | nil => simp [entry, after_equals]
  | cons c n ih =>
    have hc : c ≠ '=' := by
      rintro rfl
      simp at h
    rw [entry, List.cons_append, after_equals, if_neg hc]
    exact ih fun hmem => h (by simp [hmem])

theorem takeWhile_entry (h : '=' ∉ n) : (entry n value).takeWhile (· ≠ '=') = n := by
  have hall : ∀ c ∈ n, (c ≠ '=' : Bool) = true := by
    intro c hc
    simp only [ne_eq, decide_not, Bool.not_eq_eq_eq_not, Bool.not_true, decide_eq_false_iff_not]
    rintro rfl
    exact h hc
  rw [entry, List.takeWhile_append_of_pos hall]
  simp

theorem take_entry (n value : List Char) : (entry n value).take (n.length + 1) = n ++ ['='] := by
  have hsplit : entry n value = (n ++ ['=']) ++ value := by simp [entry]
  rw [hsplit]
  exact List.take_left' (by simp)

/-- Two names without an equals sign, one followed by it in the other's entry, are one name. -/
theorem eq_of_entry_value_isSome (hm : '=' ∉ m) (hn : '=' ∉ n)
    (h : (entry_value m (entry n value)).isSome = true) :
    m = n := by
  unfold entry_value at h
  split at h
  · rename_i hstarts
    rw [ List.isPrefixOf_iff_prefix] at hstarts
    obtain ⟨rest, hrest⟩ := hstarts
    have htake : (m ++ ['='] ++ rest).takeWhile (· ≠ '=') = n := by rw [hrest, takeWhile_entry hn]
    have hm' : (entry m rest).takeWhile (· ≠ '=') = m := takeWhile_entry hm
    rw [← hm', ← htake]
    simp [entry]
  · cases h

theorem entry_value_of_ne (hm : '=' ∉ m) (hn : '=' ∉ n) (hne : m ≠ n) :
    entry_value m (entry n value) = none := by
  cases hvalue : entry_value m (entry n value) with
  | none => rfl
  | some v => exact absurd (eq_of_entry_value_isSome hm hn (by rw [hvalue]; rfl)) hne

end Entry

section Valid

variable {name : List Char}

theorem no_equals_of_valid (h : invalid_name name = false) : '=' ∉ name := by
  simp only [invalid_name, Bool.or_eq_false_iff, List.contains_eq_mem, decide_eq_false_iff_not] at h
  exact h.2

theorem not_isPrefixOf_nil_of_valid (h : invalid_name name = false) :
    name.isPrefixOf ([] : List Char) = false := by
  cases name with
  | nil => simp [invalid_name] at h
  | cons c name => rfl

end Valid

/-- Names that can be given to the functions and of which none begins another. -/
structure PrefixFree (N : Set (List Char)) : Prop where
  valid : ∀ n ∈ N, invalid_name n = false
  free : ∀ n ∈ N, ∀ m ∈ N, n <+: m → n = m

/-- For each of the names, the entries that begin with it are its own entry, if it is set,
    and no other. -/
def Represents (N : Set (List Char)) (vars : List Char → Option (List Char))
    (entries : List (List Char)) : Prop :=
  ∀ n ∈ N, entries.filter n.isPrefixOf = ((vars n).map (entry n)).toList

section Represents

variable {N : Set (List Char)} {vars : List Char → Option (List Char)}
    {entries front back : List (List Char)}
  {n m v value : List Char}

theorem PrefixFree.no_equals (hN : PrefixFree N) (hn : n ∈ N) : '=' ∉ n :=
  no_equals_of_valid (hN.valid n hn)

theorem isPrefixOf_entry (n value : List Char) : n.isPrefixOf (entry n value) = true := by
  rw [ List.isPrefixOf_iff_prefix]
  exact List.prefix_append n _

/-- Only its own entry begins with a name of a prefix-free set. -/
theorem PrefixFree.not_isPrefixOf (hN : PrefixFree N) (hm : m ∈ N) (hn : n ∈ N) (hne : m ≠ n) :
    m.isPrefixOf (entry n value) = false := by
  rw [Bool.eq_false_iff]
  intro hstarts
  rw [ List.isPrefixOf_iff_prefix] at hstarts
  obtain hmn | hnm := List.prefix_or_prefix_of_prefix hstarts (List.prefix_append n _)
  · exact hne (hN.free m hm n hn hmn)
  · exact hne (hN.free n hn m hm hnm).symm

theorem PrefixFree.not_isPrefixOf_nil (hN : PrefixFree N) (hn : n ∈ N) :
    n.isPrefixOf ([] : List Char) = false :=
  not_isPrefixOf_nil_of_valid (hN.valid n hn)

theorem lookup_filter (n : List Char) (entries : List (List Char)) :
    lookup n (entries.filter n.isPrefixOf) = lookup n entries := by
  unfold lookup
  induction entries with
  | nil => rfl
  | cons str entries ih =>
    cases hstarts : n.isPrefixOf str with
    | true => rw [List.filter_cons_of_pos hstarts, List.findSome?_cons, List.findSome?_cons, ih]
    | false =>
      rw [List.filter_cons_of_neg (by simp [hstarts]), List.findSome?_cons,
        entry_value_eq_none_of_not_isPrefixOf hstarts, ih]

theorem Represents.lookup_eq (h : Represents N vars entries) (hn : n ∈ N) : lookup n entries = vars n := by
  rw [← lookup_filter, h n hn]
  cases vars n with
  | none => rfl
  | some v => simp [lookup, entry_value_self]

theorem Represents.of_mem (h : Represents N vars entries) (hn : n ∈ N) {str : List Char}
    (hstr : str ∈ entries) (hstarts : n.isPrefixOf str = true) :
    ∃ v, vars n = some v ∧ str = entry n v := by
  have hmem : str ∈ entries.filter n.isPrefixOf := List.mem_filter.mpr ⟨hstr, hstarts⟩
  rw [h n hn] at hmem
  cases hvars : vars n with
  | none => simp [hvars] at hmem
  | some v => exact ⟨v, rfl, by simpa [hvars] using hmem⟩

/-- The entry of a set variable is the only one that begins with its name. -/
theorem Represents.alone (h : Represents N vars (front ++ entry n v :: back)) (hn : n ∈ N) :
    front.filter n.isPrefixOf = [] ∧ back.filter n.isPrefixOf = [] := by
  have hfilter := h n hn
  rw [List.filter_append, List.filter_cons_of_pos (isPrefixOf_entry n v)] at hfilter
  have hlength := congrArg List.length hfilter
  have hbound : ((vars n).map (entry n)).toList.length ≤ 1 := by cases vars n <;> simp
  simp only [List.length_append, List.length_cons] at hlength
  exact ⟨List.length_eq_zero_iff.mp (by omega), List.length_eq_zero_iff.mp (by omega)⟩

/-- A new value in the place of the old one. -/
theorem Represents.replace (h : Represents N vars (front ++ entry n v :: back)) (hN : PrefixFree N)
    (hn : n ∈ N) (value : List Char) :
    Represents N (Function.update vars n (some value)) (front ++ entry n value :: back) := by
  intro m hm
  by_cases hmn : m = n
  · subst hmn
    obtain ⟨hfront, hback⟩ := h.alone hn
    rw [List.filter_append, List.filter_cons_of_pos (isPrefixOf_entry m value), hfront, hback,
      Function.update_self]
    rfl
  · have hfilter := h m hm
    rw [Function.update_of_ne hmn, ← hfilter, List.filter_append, List.filter_append,
      List.filter_cons_of_neg (by simp [hN.not_isPrefixOf hm hn hmn]),
      List.filter_cons_of_neg (by simp [hN.not_isPrefixOf hm hn hmn])]

/-- A new entry at the end. -/
theorem Represents.append (h : Represents N vars entries) (hN : PrefixFree N) (hn : n ∈ N)
    (hunset : vars n = none) (value : List Char) :
    Represents N (Function.update vars n (some value)) (entries ++ [entry n value]) := by
  intro m hm
  rw [List.filter_append, h m hm]
  by_cases hmn : m = n
  · subst hmn
    rw [List.filter_cons_of_pos (isPrefixOf_entry m value), hunset, Function.update_self]
    rfl
  · rw [Function.update_of_ne hmn, List.filter_cons_of_neg (by simp [hN.not_isPrefixOf hm hn hmn])]
    simp

/-- The string that `xunsetenv` leaves in an entry. -/
def blanked (name str : List Char) : List Char := if name.isPrefixOf str then [] else str

/-- The entries of a name blanked. -/
theorem Represents.blank (h : Represents N vars entries) (hN : PrefixFree N) (hn : n ∈ N) :
    Represents N (Function.update vars n none) (entries.map (blanked n)) := by
  intro m hm
  rw [List.filter_map]
  by_cases hmn : m = n
  · subst hmn
    have hnone : entries.filter (m.isPrefixOf ∘ blanked m) = [] := by
      apply List.filter_eq_nil_iff.mpr
      intro str _
      simp only [Function.comp_apply, blanked]
      split
      · simp [hN.not_isPrefixOf_nil hn]
      · assumption
    rw [hnone, Function.update_self]
    rfl
  · have hkeep (str : List Char) (hstr : str ∈ entries) (hstarts : m.isPrefixOf str = true) :
      blanked n str = str := by
      obtain ⟨v, _, rfl⟩ := h.of_mem hm hstr hstarts
      rw [blanked, if_neg (by simp [hN.not_isPrefixOf hn hm (Ne.symm hmn)])]
    have hsame : entries.filter (m.isPrefixOf ∘ blanked n) =
        entries.filter m.isPrefixOf := by
      apply List.filter_congr
      intro str hstr
      simp only [Function.comp_apply]
      cases hstarts : m.isPrefixOf str with
      | true => rw [hkeep str hstr hstarts, hstarts]
      | false =>
        unfold blanked
        split
        · exact hN.not_isPrefixOf_nil hm
        · exact hstarts
    have hmap : (entries.filter m.isPrefixOf).map (blanked n) =
        entries.filter m.isPrefixOf := by
      rw [List.map_congr_left (g := id), List.map_id]
      intro str hstr
      obtain ⟨hmem, hstarts⟩ := List.mem_filter.mp hstr
      exact hkeep str hmem hstarts
    rw [hsame, hmap, Function.update_of_ne hmn, h m hm]

/-- What happens to the entries of one name is not seen under another. -/
theorem lookup_replace (hm : '=' ∉ m) (hn : '=' ∉ n) (hne : m ≠ n) :
    lookup m (front ++ entry n value :: back) = lookup m (front ++ entry n v :: back) := by
  simp only [lookup, List.findSome?_append, List.findSome?_cons, entry_value_of_ne hm hn hne]

theorem lookup_append (hm : '=' ∉ m) (hn : '=' ∉ n) (hne : m ≠ n) :
    lookup m (entries ++ [entry n value]) = lookup m entries := by
  simp [lookup, List.findSome?_append, entry_value_of_ne hm hn hne]

/-- Blanking the entries that begin with a name is not seen under another name, if all of
    them are entries of the name itself. -/
theorem lookup_blanked (hown : ∀ str ∈ entries, n.isPrefixOf str = true → (entry_value n str).isSome = true)
    (hm : '=' ∉ m) (hn : '=' ∉ n) (hne : m ≠ n) :
    lookup m (entries.map (blanked n)) = lookup m entries := by
  have hsame (str : List Char) (hstr : str ∈ entries) :
    entry_value m (blanked n str) = entry_value m str := by
    unfold blanked
    split
    · rename_i hstarts
      obtain ⟨v, hv⟩ := Option.isSome_iff_exists.mp (hown str hstr hstarts)
      rw [eq_entry_of_entry_value hv, entry_value_of_ne hm hn hne]
      cases m <;> rfl
    · rfl
  unfold lookup
  clear hown
  induction entries with
  | nil => rfl
  | cons str entries ih =>
    rw [List.map_cons, List.findSome?_cons, List.findSome?_cons, hsame str (by simp),
      ih fun str hstr => hsame str (by simp [hstr])]

theorem Represents.lookup_blank (h : Represents N vars entries) (hN : PrefixFree N) (hn : n ∈ N)
    (hm : '=' ∉ m) (hne : m ≠ n) : lookup m (entries.map (blanked n)) = lookup m entries := by
  refine lookup_blanked (fun str hstr hstarts => ?_) hm (hN.no_equals hn) hne
  obtain ⟨v, _, rfl⟩ := h.of_mem hn hstr hstarts
  rw [entry_value_self]
  rfl

end Represents

end tlpi.setenv
