import Mathlib.Data.List.TakeWhile
import Tlpi.Setenv.Unset

namespace tlpi.setenv

/-- The string that `xsetenv` makes of an entry that begins with the name. -/
def overwritten (name value str : List Char) : List Char := str.take (name.length + 1) ++ value

/-- The part of a string before its first equals sign. -/
def name_part (str : List Char) : List Char := str.takeWhile (· ≠ '=')

section Lookup

variable {name value n v m str : List Char} {front rest : List (List Char)}

theorem lookup_at (m : List Char) (front : List (List Char)) (str : List Char)
    (rest : List (List Char)) :
    lookup m (front ++ str :: rest) = (lookup m front).or ((entry_value m str).or (lookup m rest)) := by
  rw [lookup, List.findSome?_append, List.findSome?_cons]
  cases entry_value m str <;> rfl

theorem lookup_skip (h : entry_value m str = none) (front rest : List (List Char)) :
    lookup m (front ++ str :: rest) = lookup m (front ++ rest) := by
  rw [lookup_at, h, Option.none_or, lookup, lookup, lookup, List.findSome?_append]

theorem no_equals_name_part (str : List Char) : '=' ∉ name_part str := by
  intro hmem
  simpa using List.mem_takeWhile_imp hmem

theorem name_part_entry (h : '=' ∉ n) : name_part (entry n v) = n := takeWhile_entry h

/-- The entry of the name itself, overwritten. -/
theorem overwritten_own (n value v : List Char) : overwritten n value (entry n v) = entry n value := by
  rw [overwritten, take_entry]
  simp [entry]

/-- A string is an entry, or it is one under no name. -/
theorem entry_or_not (str : List Char) :
    (after_equals str = none ∧ ∀ m, entry_value m str = none) ∨
      ∃ w, after_equals str = some w ∧ str = entry (name_part str) w := by
  induction str with
  | nil =>
    refine Or.inl ⟨rfl, fun m => ?_⟩
    cases m <;> rfl
  | cons c str ih =>
    by_cases hc : c = '='
    · subst hc
      exact Or.inr ⟨str, rfl, by simp [entry, name_part]⟩
    · obtain ⟨hnone, hno⟩ | ⟨w, hsome, hentry⟩ := ih
      · refine Or.inl ⟨by rw [after_equals, if_neg hc, hnone], fun m => ?_⟩
        cases hvalue : entry_value m (c :: str) with
        | none => rfl
        | some w =>
          have hentry := eq_entry_of_entry_value hvalue
          have hmem : '=' ∈ c :: str := by simp [hentry, entry]
          have hmem : '=' ∈ str := (List.mem_cons.mp hmem).resolve_left (Ne.symm hc)
          exact absurd hmem (after_equals_eq_none hnone)
      · refine Or.inr ⟨w, by rw [after_equals, if_neg hc, hsome], ?_⟩
        rw [name_part, List.takeWhile_cons_of_pos (by simpa using hc), entry, List.cons_append]
        exact congrArg (List.cons c) hentry

/-- The entry of a longer name, overwritten as if it were one of the name. -/
theorem overwritten_longer (hn : '=' ∉ n) (hlonger : name <+: n) (hne : n ≠ name) (value v : List Char) :
    ∃ c, c ≠ '=' ∧ overwritten name value (entry n v) = name ++ c :: value := by
  obtain ⟨tail, rfl⟩ := hlonger
  cases tail with
  | nil => simp at hne
  | cons c tail =>
    refine ⟨c, ?_, ?_⟩
    · rintro rfl
      simp at hn
    · have hsplit : entry (name ++ c :: tail) v = (name ++ [c]) ++ (tail ++ '=' :: v) := by simp [entry]
      have htake : (entry (name ++ c :: tail) v).take (name.length + 1) = name ++ [c] := by
        rw [hsplit]
        exact List.take_left' (by simp)
      rw [overwritten, htake]
      simp

theorem entry_value_longer {c : Char} (hc : c ≠ '=') (name value : List Char) :
    entry_value name (name ++ c :: value) = none := by
  cases hvalue : entry_value name (name ++ c :: value) with
  | none => rfl
  | some w =>
    have hentry := eq_entry_of_entry_value hvalue
    rw [entry, List.append_cancel_left_eq, List.cons.injEq] at hentry
    exact absurd hentry.1 hc

/-- The name of an overwritten entry of a longer name is again a longer one. -/
theorem name_part_longer {c : Char} (hc : c ≠ '=') (hname : '=' ∉ name) (value : List Char) :
    name <+: name_part (name ++ c :: value) ∧ name_part (name ++ c :: value) ≠ name := by
  have hall : ∀ d ∈ name ++ [c], (d ≠ '=' : Bool) = true := by
    intro d hd
    simp only [ne_eq, decide_not, Bool.not_eq_eq_eq_not, Bool.not_true, decide_eq_false_iff_not]
    rintro rfl
    simp only [List.mem_append, List.mem_singleton] at hd
    obtain hd | hd := hd
    · exact hname hd
    · exact hc hd.symm
  have hsplit : name_part (name ++ c :: value) = name ++ c :: name_part value := by
    have happend : name ++ c :: value = (name ++ [c]) ++ value := by simp
    rw [happend, name_part, List.takeWhile_append_of_pos hall]
    simp [name_part]
  rw [hsplit]
  refine ⟨List.prefix_append name _, fun heq => ?_⟩
  simpa using congrArg List.length heq

/-- In front of the first entry that begins with a name there is no entry of a longer one. -/
theorem lookup_front_eq_none (hfront : ∀ x ∈ front, name.isPrefixOf x = false) (h : name <+: m) :
    lookup m front = none := by
  refine List.findSome?_eq_none_iff.mpr fun x hx => ?_
  cases hvalue : entry_value m x with
  | none => rfl
  | some w =>
    have hno := hfront x hx
    have hstarts : name <+: x := by
      rw [eq_entry_of_entry_value hvalue]
      exact h.trans (List.prefix_append m _)
    rw [← List.isPrefixOf_iff_prefix, hno] at hstarts
    cases hstarts

/-- The string in the place of an entry of another name is an entry under no name. -/
theorem replaced_iff_of_no_entry (hn : '=' ∉ n) (hstr : ∀ m, entry_value m str = none)
    (hfront : lookup n front = none) (hne : n ≠ name) :
    (∀ m, m ≠ name → '=' ∉ m →
        lookup m (front ++ str :: rest) = lookup m (front ++ entry n v :: rest)) ↔
      lookup n (front ++ rest) = some v := by
  have hrest (m : List Char) : lookup m (front ++ str :: rest) = lookup m (front ++ rest) :=
    lookup_skip (hstr m) front rest
  have hold : lookup n (front ++ entry n v :: rest) = some v := by
    rw [lookup_at, hfront, entry_value_self]
    rfl
  constructor
  · intro h
    rw [← hrest, h n hne hn, hold]
  · intro h m hm hequals
    rw [hrest]
    by_cases hmn : m = n
    · rw [hmn, h, hold]
    · rw [lookup_skip (entry_value_of_ne hequals hn hmn)]

/-- It is an entry of some name that is not found before it. -/
theorem replaced_iff_of_entry {k w : List Char} (hn : '=' ∉ n) (hk : '=' ∉ k)
    (hfront : lookup n front = none) (hfront' : lookup k front = none) (hne : n ≠ name)
    (hkne : k ≠ name) :
    (∀ m, m ≠ name → '=' ∉ m →
        lookup m (front ++ entry k w :: rest) = lookup m (front ++ entry n v :: rest)) ↔
      lookup k (front ++ entry n v :: rest) = some w ∧ (k = n ∨ lookup n (front ++ rest) = some v) := by
  have hnew : lookup k (front ++ entry k w :: rest) = some w := by
    rw [lookup_at, hfront', entry_value_self]
    rfl
  have hold : lookup n (front ++ entry n v :: rest) = some v := by
    rw [lookup_at, hfront, entry_value_self]
    rfl
  have hskip (m j u : List Char) (hm : '=' ∉ m) (hj : '=' ∉ j) (hmj : m ≠ j) :
      lookup m (front ++ entry j u :: rest) = lookup m (front ++ rest) :=
    lookup_skip (entry_value_of_ne hm hj hmj) front rest
  constructor
  · intro h
    refine ⟨by rw [← h k hkne hk, hnew], ?_⟩
    by_cases hkn : k = n
    · exact Or.inl hkn
    · exact Or.inr (by rw [← hskip n k w hn hk (Ne.symm hkn), h n hne hn, hold])
  · rintro ⟨hseen, hagain⟩ m hm hequals
    by_cases hmk : m = k
    · rw [hmk, hnew, hseen]
    · rw [hskip m k w hequals hk hmk]
      by_cases hmn : m = n
      · obtain hkn | hagain := hagain
        · exact absurd (hmn.trans hkn.symm) hmk
        · rw [hmn, hagain, hold]
      · rw [hskip m n v hequals hn hmn]

end Lookup

/-- The named variable has the value, and no other variable looks different. -/
def SetsOnly (e e' : Env) (name value : List Char) : Prop :=
  getenv e' name = some value ∧ ∀ m, m ≠ name → '=' ∉ m → getenv e' m = getenv e m

/-- The strings of the environment without one of them. -/
def others (e : Env) (p : Nat) : List (List Char) := (e.environ.filter (· ≠ p)).map e.string

/-- The entry of another variable is overwritten, and nobody can tell: the named variable has
    the value already, the other one has its value once more further on, and what has become
    of the entry is none, or shows what is there. A string that is not an entry, when it goes
    to `putenv`, also removes the variable of that name. -/
def Unnoticed (e : Env) (name value : List Char) (p : Nat) (resized : Bool) : Prop :=
  let other := name_part (e.string p)
  let str := overwritten name value (e.string p)
  getenv e name = some value ∧
    match after_equals str with
    | none => lookup other (others e p) = getenv e other ∧ (resized = true → getenv e str = none)
    | some w =>
      getenv e (name_part str) = some w ∧
        (name_part str = other ∨ lookup other (others e p) = getenv e other)

/-- The first entry that begins with the name decides. If the value fits into it, or if it is
    one of `EnvList`, it is overwritten and has to be the name's own. Otherwise all entries
    that begin with the name are blanked and have to be the name's own. -/
def OverwritesOwn (e : Env) (ptrs : List Nat) (name value : List Char) : Prop :=
  ∀ p v, e.environ.find? (fun p => name.isPrefixOf (e.string p)) = some p →
    after_equals (e.string p) = some v →
    if value.length < v.length ∨ p ∈ ptrs then
      (entry_value name (e.string p)).isSome = true ∨
        Unnoticed e name value p (decide (v.length ≤ value.length))
    else OnlyOwn e name

/-- The first entry that begins with a name. -/
structure FirstAt (e : Env) (name : List Char) (front : List Nat) (p : Nat) (back : List Nat)
    (n v : List Char) : Prop where
  split : e.environ = front ++ p :: back
  string : e.string p = entry n v
  no_equals : '=' ∉ n
  starts : name <+: n
  before : ∀ x ∈ front, name.isPrefixOf (e.string x) = false

section First

variable {e e' : Env} {name value n v : List Char} {front back : List Nat} {p : Nat}

theorem FirstAt.exists_of_set (hentries : AllEntries e) (hname : invalid_name name = false)
    (hset : (getenv e name).isSome = true) :
    ∃ front p back n v, FirstAt e name front p back n v := by
  obtain ⟨w, hw⟩ := Option.isSome_iff_exists.mp hset
  obtain ⟨ep, hfind⟩ := findIdx_isSome_of_getenv hw
  obtain ⟨front, p, back, hsplit, _, hstarts, hbefore⟩ := exists_of_findIdx hfind
  obtain ⟨n, v, hstring, hn⟩ := hentries p (by simp [hsplit])
  rw [hstring, List.isPrefixOf_iff_prefix] at hstarts
  exact ⟨front, p, back, n, v, hsplit, hstring, hn,
    isPrefix_name_of_entry (no_equals_of_valid hname) hstarts, hbefore⟩

theorem FirstAt.isPrefixOf (h : FirstAt e name front p back n v) :
    name.isPrefixOf (e.string p) = true := by
  rw [ List.isPrefixOf_iff_prefix, h.string]
  exact h.starts.trans (List.prefix_append n _)

theorem FirstAt.not_front (h : FirstAt e name front p back n v) : p ∉ front := by
  intro hmem
  have hno := h.before p hmem
  rw [h.isPrefixOf] at hno
  cases hno

theorem FirstAt.find_eq (h : FirstAt e name front p back n v) :
    e.environ.find? (fun p => name.isPrefixOf (e.string p)) = some p := by
  rw [h.split, List.find?_append, List.find?_cons, h.isPrefixOf,
    List.find?_eq_none.mpr fun x hx => by simp [h.before x hx]]
  rfl

theorem FirstAt.after_equals_eq (h : FirstAt e name front p back n v) :
    after_equals (e.string p) = some v := by
  rw [h.string, after_equals_entry h.no_equals]

/-- Only the first of several entries at one address is ever seen. -/
theorem lookup_once (m : List Char) (s : Nat → List Char) (front : List Nat) (p : Nat) (back : List Nat) :
    lookup m ((front ++ p :: back).map s) =
      lookup m (front.map s ++ s p :: (back.filter (· ≠ p)).map s) := by
  rw [List.map_append, List.map_cons, lookup_at, lookup_at]
  cases hvalue : entry_value m (s p) with
  | some w => rfl
  | none =>
    congr 2
    simp only [lookup]
    induction back with
    | nil => rfl
    | cons x back ih =>
      by_cases hx : x = p
      · rw [List.filter_cons_of_neg (by simp [hx]), List.map_cons, List.findSome?_cons, hx, hvalue, ih]
      · rw [List.filter_cons_of_pos (by simp [hx]), List.map_cons, List.map_cons,
          List.findSome?_cons, List.findSome?_cons, ih]

/-- What is seen under a name when the string at `p` is this one. -/
def seenWith (e : Env) (front : List Nat) (p : Nat) (back : List Nat) (str m : List Char) :
    Option (List Char) :=
  lookup m (front.map e.string ++ str :: (back.filter (· ≠ p)).map e.string)

theorem FirstAt.getenv_eq (h : FirstAt e name front p back n v) (m : List Char) :
    getenv e m = seenWith e front p back (entry n v) m := by
  rw [getenv_eq_lookup, view, h.split, lookup_once, h.string, seenWith]

theorem FirstAt.others_eq (h : FirstAt e name front p back n v) :
    others e p = front.map e.string ++ (back.filter (· ≠ p)).map e.string := by
  have hfront : front.filter (· ≠ p) = front :=
    List.filter_eq_self.mpr fun x hx => by simpa using ne_of_mem_of_not_mem hx h.not_front
  rw [others, h.split, List.filter_append, hfront, List.filter_cons_of_neg (by simp), List.map_append]

theorem FirstAt.lookup_front (h : FirstAt e name front p back n v) {m : List Char} (hm : name <+: m) :
    lookup m (front.map e.string) = none := by
  refine lookup_front_eq_none (fun x hx => ?_) hm
  obtain ⟨y, hy, rfl⟩ := List.mem_map.mp hx
  exact h.before y hy

/-- The name's own entry is overwritten. -/
theorem FirstAt.sets_own (h : FirstAt e name front p back n v) (hown : n = name)
    (hseen : ∀ m, '=' ∉ m →
      getenv e' m = seenWith e front p back (overwritten name value (entry n v)) m) :
    SetsOnly e e' name value := by
  subst hown
  rw [overwritten_own] at hseen
  refine ⟨?_, fun m hm hequals => ?_⟩
  · rw [hseen n h.no_equals, seenWith, lookup_at, h.lookup_front List.prefix_rfl, entry_value_self]
    rfl
  · rw [hseen m hequals, h.getenv_eq m, seenWith, seenWith, lookup_replace hequals h.no_equals hm]

/-- Another variable has its value once more further on. -/
theorem FirstAt.again_iff (h : FirstAt e name front p back n v) :
    lookup n (others e p) = getenv e n ↔
      lookup n (front.map e.string ++ (back.filter (· ≠ p)).map e.string) = some v := by
  rw [h.others_eq, h.getenv_eq n, seenWith, lookup_at n _ (entry n v), h.lookup_front h.starts,
    entry_value_self]
  rfl

/-- The overwritten entry of another variable shows nothing under the name. -/
theorem FirstAt.seenWith_name (h : FirstAt e name front p back n v) (hname : '=' ∉ name)
    (hother : n ≠ name) :
    seenWith e front p back (overwritten name value (entry n v)) name = getenv e name := by
  obtain ⟨c, hc, hstr⟩ := overwritten_longer h.no_equals h.starts hother value v
  rw [h.getenv_eq name, seenWith, seenWith, lookup_at, lookup_at, hstr, entry_value_longer hc,
    entry_value_of_ne hname h.no_equals (Ne.symm hother)]

/-- The entry of another variable is overwritten, and the string is not given to `putenv` or
    is an entry, so that `putenv` finds it in its place. -/
theorem FirstAt.sets_other (h : FirstAt e name front p back n v) (hname : '=' ∉ name)
    (hother : n ≠ name) {resized : Bool}
    (hput : resized = true → (after_equals (overwritten name value (entry n v))).isSome = true)
    (hseen : ∀ m, '=' ∉ m →
      getenv e' m = seenWith e front p back (overwritten name value (entry n v)) m) :
    SetsOnly e e' name value ↔ Unnoticed e name value p resized := by
  obtain ⟨c, hc, hstr⟩ := overwritten_longer h.no_equals h.starts hother value v
  have hpart : name_part (entry n v) = n := name_part_entry h.no_equals
  have hsame : getenv e' name = getenv e name := by
    rw [hseen name hname, h.seenWith_name hname hother]
  have hsee : (∀ m, m ≠ name → '=' ∉ m → getenv e' m = getenv e m) ↔
      ∀ m, m ≠ name → '=' ∉ m → seenWith e front p back (overwritten name value (entry n v)) m =
        seenWith e front p back (entry n v) m := by
    constructor
    · intro hall m hm hequals
      rw [← hseen m hequals, hall m hm hequals, h.getenv_eq m]
    · intro hall m hm hequals
      rw [hseen m hequals, hall m hm hequals, h.getenv_eq m]
  simp only [SetsOnly, Unnoticed, hsame, h.string, hpart, h.again_iff, hsee]
  apply and_congr_right
  intro _
  obtain ⟨hnone, hno⟩ | ⟨w, hsome, hentry⟩ := entry_or_not (overwritten name value (entry n v))
  · rw [hnone] at hput
    have hkeep : resized = false := Bool.eq_false_iff.mpr fun hyes => by cases hput hyes
    simp only [hnone, hkeep, Bool.false_eq_true, false_implies, and_true]
    exact replaced_iff_of_no_entry h.no_equals hno (h.lookup_front h.starts) hother
  · obtain ⟨hlonger, hne⟩ := name_part_longer hc hname value
    rw [← hstr] at hlonger hne
    simp only [hsome, h.getenv_eq]
    refine Iff.trans ?_ (replaced_iff_of_entry h.no_equals (no_equals_name_part _)
      (h.lookup_front h.starts) (h.lookup_front hlonger) hother hne)
    rw [← hentry]
    rfl

/-- The entry of another variable is overwritten, and the string, which is no entry, is given
    to `putenv`, so that the variable of that name is removed. -/
theorem FirstAt.sets_removed (h : FirstAt e name front p back n v) (hname : '=' ∉ name)
    (hother : n ≠ name) (hput : after_equals (overwritten name value (entry n v)) = none)
    (hseen : ∀ m, '=' ∉ m → getenv e' m =
      if m = overwritten name value (entry n v) then none
      else seenWith e front p back (overwritten name value (entry n v)) m) :
    SetsOnly e e' name value ↔ Unnoticed e name value p true := by
  obtain ⟨c, hc, hstr⟩ := overwritten_longer h.no_equals h.starts hother value v
  have hpart : name_part (entry n v) = n := name_part_entry h.no_equals
  have hno : ∀ m, entry_value m (overwritten name value (entry n v)) = none := by
    obtain ⟨_, hno⟩ | ⟨w, hsome, _⟩ := entry_or_not (overwritten name value (entry n v))
    · exact hno
    · rw [hput] at hsome
      cases hsome
  have hequals : '=' ∉ overwritten name value (entry n v) := after_equals_eq_none hput
  have hne : overwritten name value (entry n v) ≠ name := by
    rw [hstr]
    intro heq
    simpa using congrArg List.length heq
  have hsame : getenv e' name = getenv e name := by
    rw [hseen name hname, if_neg (Ne.symm hne), h.seenWith_name hname hother]
  have hold : getenv e n = some v := by
    rw [h.getenv_eq n, seenWith, lookup_at, h.lookup_front h.starts, entry_value_self]
    rfl
  simp only [SetsOnly, Unnoticed, hsame, h.string, hpart, h.again_iff, hput, true_implies]
  apply and_congr_right
  intro _
  constructor
  · intro hall
    have hgone : getenv e (overwritten name value (entry n v)) = none := by
      rw [← hall _ hne hequals, hseen _ hequals, if_pos rfl]
    have hn : n ≠ overwritten name value (entry n v) := by
      intro heq
      rw [← heq, hold] at hgone
      cases hgone
    refine ⟨?_, hgone⟩
    rw [← hold, ← hall n hother h.no_equals, hseen n h.no_equals, if_neg hn, seenWith,
      lookup_skip (hno n)]
  · rintro ⟨hagain, hgone⟩ m hm hm'
    rw [hseen m hm']
    split
    · rename_i heq
      rw [heq, hgone]
    · rw [seenWith, lookup_skip (hno m)]
      by_cases hmn : m = n
      · rw [hmn, hagain, hold]
      · rw [h.getenv_eq m, seenWith, lookup_skip (entry_value_of_ne hm' h.no_equals hmn)]

end First

/-- An environment of `NAME=VALUE` entries with `EnvList` allocated and terminated. A string
    of `EnvList` is entered by `putenv`, and so it is there at most once. -/
structure Overwritable (e : Env) (ptrs : List Nat) (junk : List Cell) : Prop where
  entries : AllEntries e
  table : Table e ptrs (.null :: junk)
  capacity : CapacityOk e
  once : ∀ p ∈ ptrs, e.environ.count p ≤ 1

/-- All allocations that a call can make succeed, and give addresses that are not in the
    environment; `realloc` of the entry to overwrite may also leave it where it is. -/
structure Granted (e : Env) (r : Replies) (name : List Char) : Prop where
  grow : e.NextEnvVar + 1 = e.EnvListCapacity →
    (list_cells r.grow (e.EnvListCapacity * 2)).isSome = true
  envvar : ∃ q ∈ r.envvar, q ∉ e.environ
  resize : ∃ q ∈ r.resize, q ∈ e.environ →
    e.environ.find? (fun p => name.isPrefixOf (e.string p)) = some q
  putenv : r.putenv = true

section Calls

variable {e : Env} {r : Replies} {name value n v : List Char} {front back ptrs : List Nat} {p : Nat}
    {junk : List Cell}

/-- The entry is overwritten where it is. -/
theorem FirstAt.getenv_in_place (h : FirstAt e name front p back n v) (str m : List Char) :
    getenv (e.set_string p str) m = seenWith e front p back str m := by
  have hother {l : List Nat} (hl : ∀ x ∈ l, x ≠ p) :
      l.map (Function.update e.string p str) = l.map e.string :=
    List.map_congr_left fun x hx => Function.update_of_ne (hl x hx) _ _
  have hview : view (e.set_string p str) = (front ++ p :: back).map (Function.update e.string p str) := by
    rw [← h.split]
    rfl
  have hback (x : Nat) (hx : x ∈ back.filter (· ≠ p)) : x ≠ p := by
    simpa using (List.mem_filter.mp hx).2
  rw [getenv_eq_lookup, hview, lookup_once, Function.update_self,
    hother fun x hx => ne_of_mem_of_not_mem hx h.not_front, hother hback, seenWith]

/-- Leaving out the entries of a name is seen under that name only. -/
theorem lookup_without {m str : List Char} (hm : '=' ∉ m) (hstr : '=' ∉ str)
    (entries : List (List Char)) :
    lookup m (entries.filter fun x => (entry_value str x).isNone) =
      if m = str then none else lookup m entries := by
  unfold lookup
  induction entries with
  | nil => simp
  | cons x entries ih =>
    cases hvalue : entry_value str x with
    | none =>
      rw [List.filter_cons_of_pos (by simp [hvalue]), List.findSome?_cons, List.findSome?_cons, ih]
      by_cases heq : m = str
      · rw [if_pos heq, if_pos heq, heq, hvalue]
      · rw [if_neg heq, if_neg heq]
    | some w =>
      rw [List.filter_cons_of_neg (by simp [hvalue]), ih]
      by_cases heq : m = str
      · rw [if_pos heq, if_pos heq]
      · rw [if_neg heq, if_neg heq, List.findSome?_cons, eq_entry_of_entry_value hvalue,
          entry_value_of_ne hm hstr heq]

/-- `putenv` of a string without an equals sign. -/
theorem getenv_putenv_no_entry {q : Nat} {m str : List Char} (hq : e.string q = str) (hstr : '=' ∉ str)
    (hm : '=' ∉ m) :
    getenv (putenv e true q).1 m = if m = str then none else getenv e m := by
  have hput : (putenv e true q).1 =
      { e with environ := e.environ.filter fun x => (entry_value str (e.string x)).isNone } := by
    simp [putenv, hq, hstr]
  rw [hput, getenv_eq_lookup, getenv_eq_lookup, ← lookup_without hm hstr]
  simp only [view, List.filter_map]
  rfl

/-- The entry is one of `EnvList` and has moved, and was given to `putenv`. -/
theorem FirstAt.resized_iff {e' : Env} {q : Nat} (h : FirstAt e name front p back n v) (hname : '=' ∉ name)
    (hfront : q ∉ front) (hback : q ∉ back) (honce : p ∉ back)
    (henviron : e'.environ = front ++ q :: back)
    (hstring : e'.string = Function.update e.string q (overwritten name value (entry n v))) :
    SetsOnly e (putenv e' true q).1 name value ↔ n = name ∨ Unnoticed e name value p true := by
  have hrest : back.filter (· ≠ p) = back :=
    List.filter_eq_self.mpr fun x hx => by simpa using ne_of_mem_of_not_mem hx honce
  have hseen (m : List Char) :
      getenv e' m = seenWith e front p back (overwritten name value (entry n v)) m := by
    rw [getenv_eq_lookup, view_update henviron hstring hfront hback, seenWith, hrest]
  have hq : e'.string q = overwritten name value (entry n v) := by rw [hstring, Function.update_self]
  obtain ⟨hnone, _⟩ | ⟨w, hsome, hentry⟩ := entry_or_not (overwritten name value (entry n v))
  · have hother : n ≠ name := by
      rintro rfl
      rw [overwritten_own, after_equals_entry h.no_equals] at hnone
      cases hnone
    rw [or_iff_right hother]
    apply h.sets_removed hname hother hnone
    intro m hm
    rw [getenv_putenv_no_entry hq (after_equals_eq_none hnone) hm, hseen]
  · have hstarts : name <+: name_part (overwritten name value (entry n v)) := by
      by_cases hown : n = name
      · subst hown
        exact ⟨[], by rw [List.append_nil, overwritten_own, name_part_entry h.no_equals]⟩
      · obtain ⟨c, hc, hstr⟩ := overwritten_longer h.no_equals h.starts hown value v
        rw [hstr]
        exact (name_part_longer hc hname value).1
    have hput : putenv e' true q = (e', 0) := by
      apply putenv_same (hq.trans hentry) (no_equals_name_part _) henviron
      intro x hx
      rw [hstring, Function.update_of_ne (ne_of_mem_of_not_mem hx hfront)]
      exact List.findSome?_eq_none_iff.mp (h.lookup_front hstarts) _ (List.mem_map_of_mem hx)
    rw [hput]
    by_cases hown : n = name
    · exact iff_of_true (h.sets_own hown fun m _ => hseen m) (Or.inl hown)
    · rw [or_iff_right hown]
      exact h.sets_other hname hown (fun _ => by rw [hsome]; rfl) fun m _ => hseen m

/-- The entry is not one of `EnvList`: everything that begins with the name is blanked, and a
    new entry is added. -/
theorem xsetenv_blanked {q : Nat} (value : List Char) (h : Overwritable e ptrs junk) (hr : Granted e r name)
    (hname : invalid_name name = false) (hq : q ∈ r.envvar) (hfresh : q ∉ e.environ) :
    ∃ e', xsetenv_new (xunsetenv e (some name)).1 r name value = .ok (e', 0) ∧
      (SetsOnly e e' name value ↔ OnlyOwn e name) := by
  have hequals := no_equals_of_valid hname
  obtain ⟨e₁, hrun, hsame, henviron, hstring⟩ := xunsetenv_eq (e := e) hname
  have hview₁ := (view_xunsetenv (e := e) hname).2
  rw [hrun] at hview₁ ⊢
  obtain ⟨e₂, _, _, _, _, hwhy⟩ | ⟨q', e₂, hq', hnew, _, henviron₂, hstring₂, _⟩ :=
    xsetenv_new_cases r name value (hsame.owned (Or.inr ⟨junk, h.table⟩)) (hsame.capacityOk h.capacity)
  · exfalso
    have hlist : e₁.EnvList ≠ none := by
      rw [hsame.list, h.table.cells]
      exact Option.some_ne_none _
    rw [hsame.next, hsame.capacity] at hwhy
    obtain ⟨hnone, _⟩ | ⟨hnone, _⟩ | ⟨hnone, _⟩ | ⟨hfull, hrefused, _⟩ := hwhy
    · exact hlist hnone
    · rw [hq] at hnone
      cases hnone
    · rw [hq] at hnone
      cases hnone
    · have hgranted := hr.grow hfull
      rw [hrefused] at hgranted
      cases hgranted
  · obtain rfl : q = q' := Option.some.inj (hq.symm.trans hq')
    have hfresh₁ : q ∉ e₁.environ := by rwa [henviron]
    have hkept (x : Nat) (hx : x ∈ e₁.environ) : e₂.string x = e₁.string x := by
      rw [hstring₂, Function.update_of_ne (ne_of_mem_of_not_mem hx hfresh₁)]
    have hq₂ : e₂.string q = entry name value := by
      rw [hstring₂, Function.update_self]
      rfl
    have hput := putenv_unset hq₂ hequals (by
      intro x hx
      rw [henviron₂] at hx
      have hblank := lookup_blanked_of_starts hname List.prefix_rfl (view e)
      rw [← hview₁] at hblank
      rw [hkept x hx]
      exact List.findSome?_eq_none_iff.mp hblank _ (List.mem_map_of_mem hx))
    have hview₂ : view { e₂ with environ := e₂.environ ++ [q] } =
        e₁.environ.map e₁.string ++ entry name value :: [].map e₁.string :=
      view_update (by rw [henviron₂]) hstring₂ hfresh₁ (by simp)
    have hview₂ : view { e₂ with environ := e₂.environ ++ [q] } =
        (view e).map (blanked name) ++ [entry name value] := by
      rw [hview₂, ← hview₁]
      rfl
    refine ⟨{ e₂ with environ := e₂.environ ++ [q] }, by rw [hnew, hr.putenv, hput], ?_⟩
    rw [← lookup_blanked_iff h.entries hname]
    have hset : getenv { e₂ with environ := e₂.environ ++ [q] } name = some value := by
      rw [getenv_eq_lookup, hview₂, lookup_at, lookup_blanked_of_starts hname List.prefix_rfl,
        entry_value_self]
      rfl
    rw [SetsOnly, hset, eq_self_iff_true, true_and]
    refine forall_congr' fun m => forall_congr' fun hm => forall_congr' fun hm' => ?_
    rw [getenv_eq_lookup, getenv_eq_lookup, hview₂, lookup_append hm' hequals hm]

theorem FirstAt.overwritesOwn_iff (h : FirstAt e name front p back n v) (hname : '=' ∉ name) :
    OverwritesOwn e ptrs name value ↔
      if value.length < v.length ∨ p ∈ ptrs then
        n = name ∨ Unnoticed e name value p (decide (v.length ≤ value.length))
      else OnlyOwn e name := by
  have hown : (entry_value name (e.string p)).isSome = true ↔ n = name := by
    rw [h.string]
    constructor
    · intro hsome
      exact (eq_of_entry_value_isSome hname h.no_equals hsome).symm
    · rintro rfl
      rw [entry_value_self]
      rfl
  rw [← hown]
  constructor
  · intro hall
    exact hall p v h.find_eq h.after_equals_eq
  · intro hcond p' v' hfind hafter
    obtain rfl : p = p' := Option.some.inj (h.find_eq.symm.trans hfind)
    obtain rfl : v = v' := Option.some.inj (h.after_equals_eq.symm.trans hafter)
    exact hcond

/-- The call comes to the first entry that begins with the name. -/
theorem FirstAt.xsetenv_eq {overwrite : Int} (h : FirstAt e name front p back n v)
    (hname : invalid_name name = false) (hset : (getenv e name).isSome = true) (hover : overwrite ≠ 0) :
    xsetenv e r (some name) value overwrite = (do
      match ← overwrite_entry e r name value front.length p with
      | .done result => return result
      | .cont e => xsetenv_new e r name value) :=
  xsetenv_at_first h.split h.isPrefixOf h.before hname hset hover

/-- A call that returns 0 in one state. -/
theorem exists_ok_iff {e' : Env} {P : Prop} (hiff : SetsOnly e e' name value ↔ P) :
    (∃ e₁, (.ok (e', 0) : Exec (Env × Int)) = .ok (e₁, 0) ∧ SetsOnly e e₁ name value) ↔ P := by
  rw [← hiff]
  constructor
  · rintro ⟨e₁, heq, hsets⟩
    rw [Except.ok.injEq, Prod.mk.injEq] at heq
    rwa [heq.1]
  · intro hsets
    exact ⟨e', rfl, hsets⟩

/-- The value is shorter than the one that is there. -/
theorem FirstAt.overwrite_short (h : FirstAt e name front p back n v) (r : Replies) (hname : '=' ∉ name)
    (hshort : value.length < v.length) :
    ∃ e', overwrite_entry e r name value front.length p = .ok (.done (e', 0)) ∧
      (SetsOnly e e' name value ↔ n = name ∨ Unnoticed e name value p false) := by
  refine ⟨e.set_string p (overwritten name value (entry n v)), ?_, ?_⟩
  · simp only [overwrite_entry, h.after_equals_eq, if_pos hshort]
    rw [h.string]
    rfl
  · have hseen := h.getenv_in_place (overwritten name value (entry n v))
    by_cases hown : n = name
    · exact iff_of_true (h.sets_own hown fun m _ => hseen m) (Or.inl hown)
    · rw [or_iff_right hown]
      exact h.sets_other hname hown (fun hno => by cases hno) fun m _ => hseen m

/-- The value is not shorter, and the entry is one of `EnvList`. -/
theorem FirstAt.overwrite_listed (hfirst : FirstAt e name front p back n v) (h : Overwritable e ptrs junk)
    (hr : Granted e r name) (hname : '=' ∉ name) (hlong : v.length ≤ value.length) (hp : p ∈ ptrs) :
    ∃ e', overwrite_entry e r name value front.length p = .ok (.done (e', 0)) ∧
      (SetsOnly e e' name value ↔ n = name ∨ Unnoticed e name value p true) := by
  obtain ⟨q, hq, hfresh⟩ := hr.resize
  obtain ⟨e₁, hrun, _, henviron, hstring, _⟩ :=
    overwrite_entry_resized name front.length h.table hp hfirst.after_equals_eq hlong hq
  have honce := h.once p hp
  rw [hfirst.split, List.count_append, List.count_cons_self] at honce
  have hpback : p ∉ back := List.count_eq_zero.mp (by omega)
  obtain ⟨hqfront, hqback⟩ : q ∉ front ∧ q ∉ back := by
    by_cases hmem : q ∈ e.environ
    · obtain rfl : p = q := Option.some.inj (hfirst.find_eq.symm.trans (hfresh hmem))
      exact ⟨hfirst.not_front, hpback⟩
    · rw [hfirst.split, List.mem_append, List.mem_cons, not_or, not_or] at hmem
      exact ⟨hmem.1, hmem.2.2⟩
  have henviron : e₁.environ = front ++ q :: back := by
    rw [henviron]
    simp [hfirst.split]
  rw [hfirst.string] at hstring
  rw [hr.putenv] at hrun
  exact ⟨_, hrun, hfirst.resized_iff hname hqfront hqback hpback henviron hstring⟩

/-- `xsetenv` gives a variable that is set its new value and leaves all others as they are, if
    and only if the first entry that begins with its name is its own (or the damage to the
    other variable goes unnoticed), and, where that entry is a foreign string that has to
    grow, all other entries that begin with its name are its own too. -/
theorem xsetenv_overwrites_iff {overwrite : Int} (h : Overwritable e ptrs junk) (hr : Granted e r name)
    (hname : invalid_name name = false) (hset : (getenv e name).isSome = true) (hover : overwrite ≠ 0) :
    (∃ e', xsetenv e r (some name) value overwrite = .ok (e', 0) ∧ SetsOnly e e' name value) ↔
      OverwritesOwn e ptrs name value := by
  have hequals := no_equals_of_valid hname
  obtain ⟨front, p, back, n, v, hfirst⟩ := FirstAt.exists_of_set h.entries hname hset
  rw [hfirst.xsetenv_eq hname hset hover, hfirst.overwritesOwn_iff hequals]
  by_cases hshort : value.length < v.length
  · obtain ⟨e', hrun, hiff⟩ := hfirst.overwrite_short r hequals hshort
    rw [hrun, if_pos (Or.inl hshort), decide_eq_false (not_le.mpr hshort)]
    exact exists_ok_iff hiff
  have hlong : v.length ≤ value.length := not_lt.mp hshort
  by_cases hp : p ∈ ptrs
  · obtain ⟨e', hrun, hiff⟩ := hfirst.overwrite_listed h hr hequals hlong hp
    rw [hrun, if_pos (Or.inr hp), decide_eq_true hlong]
    exact exists_ok_iff hiff
  · have hwalk := walk_EnvList_spec p h.table
    rw [if_neg hp] at hwalk
    obtain ⟨q, hq, hfresh⟩ := hr.envvar
    obtain ⟨e', hrun, hiff⟩ := xsetenv_blanked value h hr hname hq hfresh
    have hleave : overwrite_entry e r name value front.length p =
        .ok (.cont (xunsetenv e (some name)).1) := by
      simp only [overwrite_entry, hfirst.after_equals_eq, if_neg hshort, hwalk, exec_bind_ok, exec_pure]
    have hforeign : ¬ (value.length < v.length ∨ p ∈ ptrs) := not_or.mpr ⟨hshort, hp⟩
    simp only [hleave, if_neg hforeign, exec_bind_ok, hrun]
    exact exists_ok_iff hiff

end Calls

/-- The environment `AB=1`, `A=2`, with `EnvList` allocated. -/
def listedPrefix : Env :=
  { sharedPrefix with EnvList := some (.null :: List.replicate 1023 .uninit) }

/-- New strings are put at 3 and 4. -/
def freshReplies : Replies := ⟨true, true, some 3, some 4, true⟩

theorem listedPrefix_overwritable : Overwritable listedPrefix [] (List.replicate 1023 .uninit) where
  entries := sharedPrefix_entries
  table := ⟨rfl, rfl, by rw [List.length_cons, List.length_replicate]; rfl, by decide⟩
  capacity := ⟨by decide, by decide⟩
  once := fun p hp => absurd hp List.not_mem_nil

theorem listedPrefix_granted (name : List Char) : Granted listedPrefix freshReplies name where
  grow := fun hfull => absurd hfull (by decide)
  envvar := ⟨3, rfl, by decide⟩
  resize := ⟨4, rfl, fun hmem => absurd hmem (by decide)⟩
  putenv := rfl

/-- Overwriting `AB` leaves `A` alone. -/
theorem xsetenv_overwrites_longer :
    ∃ e', xsetenv listedPrefix freshReplies (some ['A', 'B']) ['3'] 1 = .ok (e', 0) ∧
      SetsOnly listedPrefix e' ['A', 'B'] ['3'] := by
  refine (xsetenv_overwrites_iff listedPrefix_overwritable (listedPrefix_granted _) (by decide)
    (by decide) (by decide)).mpr ?_
  intro p v hfind hafter
  obtain rfl : 1 = p := Option.some.inj hfind
  obtain rfl : ['1'] = v := Option.some.inj hafter
  rw [if_neg (by decide)]
  decide

/-- Overwriting `A` with the empty string damages `AB` and does not change `A`. -/
theorem xsetenv_overwrites_other :
    Overwritable listedPrefix [] (List.replicate 1023 .uninit) ∧
      Granted listedPrefix freshReplies ['A'] ∧ (getenv listedPrefix ['A']).isSome = true ∧
      ¬ ∃ e', xsetenv listedPrefix freshReplies (some ['A']) [] 1 = .ok (e', 0) ∧
        SetsOnly listedPrefix e' ['A'] [] := by
  refine ⟨listedPrefix_overwritable, listedPrefix_granted _, by decide, ?_⟩
  rintro ⟨e', hrun, hset, _⟩
  have hold : (xsetenv listedPrefix freshReplies (some ['A']) [] 1).toOption.map
      (fun r => getenv r.1 ['A']) = some (some ['2']) := by decide
  rw [hrun] at hold
  simp only [Except.toOption, Option.map_some, hset, Option.some.injEq] at hold
  cases hold

end tlpi.setenv
