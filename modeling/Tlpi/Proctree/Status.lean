import Tlpi.Lib.Text
import Tlpi.Proctree.Model

namespace tlpi.procfs

open proctree (LINE_MAX Status)

/-- What `readdir` returns, and the text of the status file that the name leads to, as long as
    there is one. -/
structure DirEntry where
  d_name : List UInt8
  status : Option (List UInt8)

/-- `"Name:"`. -/
def name_key : List UInt8 := [78, 97, 109, 101, 58]

/-- `"Pid:"`. -/
def pid_key : List UInt8 := [80, 105, 100, 58]

/-- `"PPid:"`. -/
def ppid_key : List UInt8 := [80, 80, 105, 100, 58]

/-- `"Uid:"`. -/
def uid_key : List UInt8 := [85, 105, 100, 58]

/-- A line as a C string: what is behind a null character is not seen. -/
def c_string (line : List UInt8) : List UInt8 := line.takeWhile (· ≠ 0)

/-- `!strncmp(line, key, n)`. -/
def begins (line key : List UInt8) (n : Nat) : Bool := (c_string line).take n = key.take n

/-- The part of `sscanf` before a conversion: the key, and any white space. -/
def scan_key (line key : List UInt8) : Option (List UInt8) :=
  if key.isPrefixOf (c_string line) then some (((c_string line).drop key.length).dropWhile is_space) else none

/-- The conversion `%s`, which fails at the end of the input. -/
def scan_word (input : List UInt8) : Option (List UInt8) :=
  match (input.dropWhile is_space).takeWhile fun c => !is_space c with
  | [] => none
  | word => some word

/-- What `strtol` makes of a number that does not fit. -/
def clamp_long (n : Int) : Int := max (-2 ^ 63) (min n (2 ^ 63 - 1))

/-- The digits of an input. -/
def scan_digits (input : List UInt8) : Option Nat :=
  match input.takeWhile (is_base_digit 10) with
  | [] => none
  | digits => some (base_value 10 digits)

/-- The `int` that a `long` becomes. -/
def long_to_int (n : Int) : Int := (n + 2 ^ 31) % 2 ^ 32 - 2 ^ 31

/-- The conversion `%d`. -/
def scan_int (input : List UInt8) : Option Int :=
  match input.dropWhile is_space with
  | 45 :: rest => (scan_digits rest).map fun n => long_to_int (clamp_long (-n))
  | 43 :: rest => (scan_digits rest).map fun n => long_to_int (clamp_long n)
  | rest => (scan_digits rest).map fun n => long_to_int (clamp_long n)

/-- The `unsigned int` that `strtoul` gives for digits behind a sign. -/
def ulong_to_uint (negative : Bool) (n : Nat) : Nat :=
  if 2 ^ 64 ≤ n then 2 ^ 32 - 1 else if negative then (2 ^ 64 - n) % 2 ^ 32 else n % 2 ^ 32

/-- The conversion `%u`. -/
def scan_uint (input : List UInt8) : Option Nat :=
  match input.dropWhile is_space with
  | 45 :: rest => (scan_digits rest).map (ulong_to_uint true)
  | 43 :: rest => (scan_digits rest).map (ulong_to_uint false)
  | rest => (scan_digits rest).map (ulong_to_uint false)

/-- `sscanf(line, "Name: %s", proc_name)`. A call that stores nothing leaves the array alone. -/
def sscanf_name (line : List UInt8) (proc_name : Option (List UInt8)) : Exec (Option (List UInt8)) :=
  match (scan_key line name_key).bind scan_word with
  | none => .ok proc_name
  | some word => if word.length < LINE_MAX then .ok (some word) else .error .outOfBounds

/-- `sscanf(line, "KEY: %d", &number)`. -/
def sscanf_int (line key : List UInt8) (number : Int) : Int := ((scan_key line key).bind scan_int).getD number

/-- What the loop over the lines of a status file works on. An array that was never written
    holds nothing. -/
structure Scan where
  proc_name : Option (List UInt8)
  proc_pid : Int
  proc_ppid : Int

/-- One iteration of that loop. The last comparison is only with the first four characters. -/
def status_line (s : Scan) (line : List UInt8) : Exec Scan :=
  if begins line name_key 5 then do
    let proc_name ← sscanf_name line s.proc_name
    return { s with proc_name }
  else if begins line pid_key 4 then .ok { s with proc_pid := sscanf_int line pid_key s.proc_pid }
  else if begins line ppid_key 4 then .ok { s with proc_ppid := sscanf_int line ppid_key s.proc_ppid }
  else .ok s

/-- What `main` of `proctree` takes from a status file. There is none if it calls `fatal`. -/
def read_status (text : List UInt8) : Exec (Option Status) := do
  let s ← (lines text).foldlM status_line ⟨none, -1, -1⟩
  if s.proc_pid = -1 ∨ s.proc_ppid = -1 then return none
  match s.proc_name with
  | none => .error .uninitialized
  | some name => return some ⟨s.proc_pid, s.proc_ppid, name⟩

/-- A line of a status file. Behind the real user id come the other ids of the process. -/
inductive Field where
  | name (value : List UInt8)
  | pid (n : Nat)
  | ppid (n : Nat)
  | uid (real : Nat) (rest : List UInt8)
  | other (text : List UInt8)

namespace Field

/-- The line without its newline. -/
def body : Field → List UInt8
  | .name value => name_key ++ [9] ++ value
  | .pid n => pid_key ++ [9] ++ numeral 10 n
  | .ppid n => ppid_key ++ [9] ++ numeral 10 n
  | .uid real rest => uid_key ++ [9] ++ (numeral 10 real ++ 9 :: rest)
  | .other text => text

/-- The part of a name up to its first blank, which is what is shown of it. -/
def shown (value : List UInt8) : List UInt8 := (value.dropWhile is_space).takeWhile fun c => !is_space c

/-- What is stored for a name. Of a blank one nothing is. -/
def stored (value : List UInt8) (proc_name : Option (List UInt8)) : Option (List UInt8) :=
  if shown value = [] then proc_name else some (shown value)

/-- What the kernel writes: names without newlines and null characters, ids of 32 bits, and other
    lines that do not look like one of these. -/
def Ok : Field → Prop
  | .name value => 10 ∉ value ∧ 0 ∉ value ∧ (shown value).length < LINE_MAX
  | .pid n => n < 2 ^ 31
  | .ppid n => n < 2 ^ 31
  | .uid real rest => real < 2 ^ 32 ∧ 10 ∉ rest ∧ 0 ∉ rest
  | .other text =>
    10 ∉ text ∧ ¬ name_key <+: text ∧ ¬ pid_key <+: text ∧ ¬ ppid_key.take 4 <+: text ∧ ¬ uid_key <+: text

instance (f : Field) : Decidable f.Ok :=
  match f with
  | .name _ => inferInstanceAs (Decidable (_ ∧ _ ∧ _))
  | .pid _ => inferInstanceAs (Decidable (_ < _))
  | .ppid _ => inferInstanceAs (Decidable (_ < _))
  | .uid _ _ => inferInstanceAs (Decidable (_ ∧ _ ∧ _))
  | .other _ => inferInstanceAs (Decidable (_ ∧ _ ∧ _ ∧ _ ∧ _))

/-- What a line says. -/
def apply (s : Scan) : Field → Scan
  | .name value => { s with proc_name := stored value s.proc_name }
  | .pid n => { s with proc_pid := n }
  | .ppid n => { s with proc_ppid := n }
  | .uid _ _ => s
  | .other _ => s

end Field

/-- The text of a status file. -/
def status_text (fields : List Field) : List UInt8 := fields.flatMap fun f => f.body ++ [10]

section Lexing

variable {line key rest value : List UInt8} {n : Nat}

theorem c_string_eq (h : 0 ∉ line) : c_string line = line := by
  unfold c_string
  rw [List.takeWhile_eq_self_iff]
  intro c hc
  rw [decide_eq_true_eq]
  rintro rfl
  exact h hc

/-- A number is read up to the first character that is no digit. -/
theorem scan_digits_numeral (n : Nat) {c : UInt8} (hc : is_base_digit 10 c = false) (rest : List UInt8) :
    scan_digits (numeral 10 n ++ c :: rest) = some n := by
  have hdigits : ∀ d ∈ numeral 10 n, is_base_digit 10 d = true := fun _ =>
    is_base_digit_of_mem_numeral (by decide) (by decide)
  have htoken := takeWhile_append_stop (m := rest) hdigits hc
  obtain ⟨d, digits, hd, _⟩ := numeral_head (by decide : 2 ≤ 10) (by decide) n
  rw [scan_digits, htoken, hd]
  simp only
  rw [← hd, base_value_numeral (by decide) (by decide)]

theorem dropWhile_numeral (n : Nat) (rest : List UInt8) :
    (numeral 10 n ++ rest).dropWhile is_space = numeral 10 n ++ rest := by
  obtain ⟨d, digits, hd, hspace, _⟩ := numeral_head (by decide : 2 ≤ 10) (by decide) n
  rw [hd, List.cons_append, List.dropWhile_cons_of_neg (by simp [hspace])]

/-- The characters of a conversion, behind the key and the tabulator. -/
theorem scan_key_append (h : 0 ∉ key ++ [9] ++ rest) :
    scan_key (key ++ [9] ++ rest) key = some (rest.dropWhile is_space) := by
  have htab : is_space 9 = true := by decide
  rw [scan_key, c_string_eq h, List.append_assoc,
    if_pos (List.isPrefixOf_iff_prefix.mpr (List.prefix_append _ _)), List.drop_left, List.singleton_append,
    List.dropWhile_cons_of_pos htab]

theorem begins_append {key' : List UInt8} (h : 0 ∉ key' ++ rest) (hn : n ≤ key'.length) :
    begins (key' ++ rest) key n = decide (key'.take n = key.take n) := by
  rw [begins, c_string_eq h, List.take_append_of_le_length hn]

/-- A line of another kind is not taken for one that is looked for. -/
theorem begins_other (key : List UInt8) (n : Nat) (h : ¬ key.take n <+: line) (hkey : 10 ∉ key) :
    begins (line ++ [10]) key n = false := by
  rw [begins, decide_eq_false_iff_not]
  intro heq
  have hbegin : key.take n <+: line ++ [10] := by
    rw [← heq]
    exact (List.take_prefix _ _).trans (List.takeWhile_prefix _)
  rcases List.prefix_concat_iff.mp hbegin with hall | hbegin
  · apply hkey
    apply List.mem_of_mem_take (i := n)
    rw [hall]
    simp
  · exact h hbegin

/-- The word that is stored for a name, if there is one. -/
theorem scan_word_name (value : List UInt8) :
    scan_word ((value ++ [10]).dropWhile is_space) =
      if Field.shown value = [] then none else some (Field.shown value) := by
  have hword : (((value ++ [10]).dropWhile is_space).dropWhile is_space).takeWhile (fun c => !is_space c) =
      Field.shown value := by
    rw [List.dropWhile_idempotent, Field.shown]
    by_cases hblank : value.dropWhile is_space = []
    · rw [List.dropWhile_append, hblank]
      rfl
    · rw [dropWhile_concat hblank, takeWhile_concat (by decide)]
  rw [scan_word, hword]
  split
  · next hnil => rw [if_pos hnil]
  · next hne => rw [if_neg hne]

theorem scan_int_numeral (hn : n < 2 ^ 31) {c : UInt8} (hc : is_base_digit 10 c = false) (rest : List UInt8) :
    scan_int ((numeral 10 n ++ c :: rest).dropWhile is_space) = some (n : Int) := by
  have hvalue : long_to_int (clamp_long n) = n := by
    unfold long_to_int clamp_long
    omega
  obtain ⟨d, digits, hd, _, hplus, hminus⟩ := numeral_head (by decide : 2 ≤ 10) (by decide) n
  have hscan := scan_digits_numeral n hc rest
  rw [scan_int, dropWhile_numeral, dropWhile_numeral]
  rw [hd, List.cons_append] at hscan ⊢
  simp [hplus, hminus, hscan, hvalue]

end Lexing

section Fields

variable {s : Scan} {fields : List Field} {a : Status}

theorem Field.Ok.no_newline {f : Field} (h : f.Ok) : 10 ∉ f.body := by
  cases f with
  | name value => simpa [Field.body, name_key] using h.1
  | pid n => simpa [Field.body, pid_key] using (numeral_line n).2
  | ppid n => simpa [Field.body, ppid_key] using (numeral_line n).2
  | uid real rest => simpa [Field.body, uid_key] using ⟨(numeral_line real).2, h.2.1⟩
  | other text => exact h.1

/-- A line with a key is told from the others by its first characters. -/
theorem status_line_eq {key rest : List UInt8} (h : 0 ∉ key ++ [9] ++ rest) (hlen : 4 ≤ key.length) :
    status_line s (key ++ [9] ++ rest) =
      if (key ++ [9]).take 5 = name_key then do
        let proc_name ← sscanf_name (key ++ [9] ++ rest) s.proc_name
        return { s with proc_name }
      else if (key ++ [9]).take 4 = pid_key then
        .ok { s with proc_pid := sscanf_int (key ++ [9] ++ rest) pid_key s.proc_pid }
      else if (key ++ [9]).take 4 = ppid_key.take 4 then
        .ok { s with proc_ppid := sscanf_int (key ++ [9] ++ rest) ppid_key s.proc_ppid }
      else .ok s := by
  have hfive : 5 ≤ (key ++ [9]).length := by
    rw [List.length_append, List.length_singleton]
    omega
  have hfour : 4 ≤ (key ++ [9]).length := by omega
  simp only [status_line, begins_append h hfive, begins_append h hfour, decide_eq_true_eq]
  rfl

/-- The name in its line, as both programs read it. -/
theorem sscanf_name_body {value : List UInt8} (h : (Field.name value).Ok) (proc_name : Option (List UInt8)) :
    sscanf_name (name_key ++ [9] ++ (value ++ [10])) proc_name = .ok (Field.stored value proc_name) := by
  obtain ⟨-, hzero, hroom⟩ := h
  have hnul : 0 ∉ name_key ++ [9] ++ (value ++ [10]) := by simpa [name_key] using hzero
  rw [sscanf_name, scan_key_append hnul, Option.bind_some, scan_word_name, Field.stored]
  by_cases hblank : Field.shown value = []
  · rw [if_pos hblank, if_pos hblank]
  · rw [if_neg hblank, if_neg hblank]
    simp only [if_pos hroom]

theorem status_line_body {f : Field} (h : f.Ok) : status_line s (f.body ++ [10]) = .ok (f.apply s) := by
  cases f with
  | name value =>
    have hnul : 0 ∉ name_key ++ [9] ++ (value ++ [10]) := by simpa [name_key] using h.2.1
    rw [Field.body, List.append_assoc _ value, status_line_eq hnul (by decide), if_pos (by decide),
      sscanf_name_body h, exec_bind_ok]
    rfl
  | pid n =>
    have hnul : 0 ∉ pid_key ++ [9] ++ (numeral 10 n ++ [10]) := by simpa [pid_key] using (numeral_line n).1
    rw [Field.body, List.append_assoc _ (numeral 10 n), status_line_eq hnul (by decide), if_neg (by decide),
      if_pos (by decide), sscanf_int, scan_key_append hnul, Option.bind_some, scan_int_numeral h (by decide)]
    rfl
  | ppid n =>
    have hnul : 0 ∉ ppid_key ++ [9] ++ (numeral 10 n ++ [10]) := by simpa [ppid_key] using (numeral_line n).1
    rw [Field.body, List.append_assoc _ (numeral 10 n), status_line_eq hnul (by decide), if_neg (by decide),
      if_neg (by decide), if_pos (by decide), sscanf_int, scan_key_append hnul, Option.bind_some,
      scan_int_numeral h (by decide)]
    rfl
  | uid real rest =>
    have hnul : 0 ∉ uid_key ++ [9] ++ (numeral 10 real ++ 9 :: rest ++ [10]) := by
      simpa [uid_key] using ⟨(numeral_line real).1, h.2.2⟩
    rw [Field.body, List.append_assoc _ (numeral 10 real ++ 9 :: rest), status_line_eq hnul (by decide),
      if_neg (by decide), if_neg (by decide), if_neg (by decide)]
    rfl
  | other text =>
    obtain ⟨-, hname, hpid, hppid, -⟩ := h
    rw [Field.body, status_line, begins_other name_key 5 hname (by decide), begins_other pid_key 4 hpid (by decide),
      begins_other ppid_key 4 hppid (by decide)]
    rfl

/-- Reading the lines of a status file takes from each what it says. -/
theorem status_lines (s : Scan) (h : ∀ f ∈ fields, f.Ok) :
    (lines (status_text fields)).foldlM status_line s = .ok (fields.foldl Field.apply s) := by
  rw [status_text, lines_flatMap _ _ fun f hf => (h f hf).no_newline]
  induction fields generalizing s with
  | nil => rfl
  | cons f fields ih =>
    rw [List.map_cons, List.foldlM_cons, status_line_body (h f (by simp)), exec_bind_ok, List.foldl_cons]
    exact ih _ fun g hg => h g (by simp [hg])

/-- The status file of a process: each of its three lines is there, and no other such line says
    anything else. -/
structure Describes (fields : List Field) (a : Status) : Prop where
  ok : ∀ f ∈ fields, f.Ok
  has_name : ∃ value, .name value ∈ fields
  names : ∀ value, .name value ∈ fields → Field.shown value = a.name
  has_pid : ∃ n, .pid n ∈ fields
  pids : ∀ n : Nat, .pid n ∈ fields → a.pid = n
  has_ppid : ∃ n, .ppid n ∈ fields
  ppids : ∀ n : Nat, .ppid n ∈ fields → a.ppid = n

/-- What every step leaves alone or sets to one value keeps that value. -/
theorem foldl_keeps {S F X : Type} {step : S → F → S} (get : S → X) {x : X} {items : List F}
    (hkeep : ∀ f ∈ items, ∀ s, get (step s f) = get s ∨ get (step s f) = x) {s : S} (hs : get s = x) :
    get (items.foldl step s) = x := by
  induction items generalizing s with
  | nil => exact hs
  | cons f items ih =>
    refine ih (fun g hg => hkeep g (List.mem_cons_of_mem f hg)) ?_
    rcases hkeep f List.mem_cons_self s with h | h
    · exact h.trans hs
    · exact h

/-- If some step sets it, it has that value in the end. -/
theorem foldl_settles {S F X : Type} {step : S → F → S} (get : S → X) {x : X} {items : List F}
    (hkeep : ∀ f ∈ items, ∀ s, get (step s f) = get s ∨ get (step s f) = x)
    (hset : ∃ f ∈ items, ∀ s, get (step s f) = x) (s : S) : get (items.foldl step s) = x := by
  obtain ⟨f, hf, hset⟩ := hset
  obtain ⟨l₁, l₂, rfl⟩ := List.append_of_mem hf
  rw [List.foldl_append, List.foldl_cons]
  exact foldl_keeps get (fun g hg => hkeep g (by simp [hg])) (hset _)

/-- Lines that all say the same name leave it behind, or nothing at all if it is blank, whatever else
    is done in between. -/
theorem name_settles {S : Type} {step : S → Field → S} (get : S → Option (List UInt8)) {name : List UInt8}
    (hname : ∀ s value, get (step s (.name value)) = Field.stored value (get s))
    (hother : ∀ s f, (∀ value, f ≠ .name value) → get (step s f) = get s)
    (hnamed : ∃ value, .name value ∈ fields) (hnames : ∀ value, .name value ∈ fields → Field.shown value = name)
    {s : S} (hs : get s = none) : get (fields.foldl step s) = if name = [] then none else some name := by
  have hkeep : ∀ f ∈ fields, ∀ s, get (step s f) = get s ∨
      get (step s f) = if name = [] then none else some name := by
    intro f hf s
    by_cases hvalue : ∃ value, f = .name value
    · obtain ⟨value, rfl⟩ := hvalue
      rw [hname, Field.stored, hnames value hf]
      split
      · exact .inl rfl
      · exact .inr rfl
    · exact .inl (hother s f fun value heq => hvalue ⟨value, heq⟩)
  by_cases hblank : name = []
  · rw [if_pos hblank] at hkeep ⊢
    exact foldl_keeps get hkeep hs
  · rw [if_neg hblank] at hkeep ⊢
    obtain ⟨value, hvalue⟩ := hnamed
    refine foldl_settles get hkeep ⟨_, hvalue, fun s => ?_⟩ s
    rw [hname, Field.stored, hnames value hvalue, if_neg hblank]

/-- Reading a status file gives back what it describes, whatever other lines there are and in
    whatever order they stand. If the name is blank, what is taken for it was never written. -/
theorem read_status_text (fields : List Field) (a : Status) (h : Describes fields a) :
    read_status (status_text fields) = if a.name = [] then .error .uninitialized else .ok (some a) := by
  have hname : (fields.foldl Field.apply ⟨none, -1, -1⟩).proc_name = if a.name = [] then none else some a.name := by
    refine name_settles Scan.proc_name (fun _ _ => rfl) (fun s f hf => ?_) h.has_name h.names rfl
    cases f with
    | name value => exact absurd rfl (hf value)
    | pid | ppid | uid | other => rfl
  have hpid : (fields.foldl Field.apply ⟨none, -1, -1⟩).proc_pid = a.pid := by
    obtain ⟨n, hn⟩ := h.has_pid
    refine foldl_settles Scan.proc_pid (fun f hf s => ?_) ⟨_, hn, fun s => (h.pids n hn).symm⟩ _
    cases f with
    | pid n => exact .inr (h.pids n hf).symm
    | name | ppid | uid | other => exact .inl rfl
  have hppid : (fields.foldl Field.apply ⟨none, -1, -1⟩).proc_ppid = a.ppid := by
    obtain ⟨n, hn⟩ := h.has_ppid
    refine foldl_settles Scan.proc_ppid (fun f hf s => ?_) ⟨_, hn, fun s => (h.ppids n hn).symm⟩ _
    cases f with
    | ppid n => exact .inr (h.ppids n hf).symm
    | name | pid | uid | other => exact .inl rfl
  obtain ⟨n, hn⟩ := h.has_pid
  obtain ⟨m, hm⟩ := h.has_ppid
  have hfound : ¬ (a.pid = -1 ∨ a.ppid = -1) := by
    rw [h.pids n hn, h.ppids m hm]
    omega
  rw [read_status, status_lines _ h.ok, exec_bind_ok, hname, hpid, hppid, if_neg hfound]
  by_cases hblank : a.name = []
  · rw [if_pos hblank, if_pos hblank]
  · rw [if_neg hblank, if_neg hblank]
    rfl

end Fields

end tlpi.procfs
