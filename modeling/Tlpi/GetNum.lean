import Tlpi.Lib.Strtol
import Tlpi.Machine

namespace tlpi.get_num

/-- The value must be at least 0. -/
def GN_NONNEG : Nat := 0o1

/-- The value must be greater than 0. -/
def GN_GT_0 : Nat := 0o2

def GN_ANY_BASE : Nat := 0o100

def GN_BASE_8 : Nat := 0o200

def GN_BASE_16 : Nat := 0o400

def has (flags flag : Nat) : Bool := flags &&& flag ≠ 0

/-- What `gnFail` prints before it ends the program. -/
def gnFail (fname msg : String) (arg : Option (List UInt8)) (name : Option (List UInt8)) : List UInt8 :=
  ascii fname ++ ascii " error" ++
    (match name with
      | some name => ascii " (in " ++ name ++ ascii ")"
      | none => []) ++
    ascii ": " ++ ascii msg ++ ascii "\n" ++
    match arg with
      | some (c :: rest) => ascii "        offending text: " ++ (c :: rest) ++ ascii "\n"
      | _ => []

/-- The base that the flags ask for, 0 for any. -/
def base_of (flags : Nat) : Nat :=
  if has flags GN_ANY_BASE then 0 else if has flags GN_BASE_8 then 8 else if has flags GN_BASE_16 then 16 else 10

/-- `getNum`: the number, or what is printed before the program exits. -/
def getNum (fname : String) (arg : Option (List UInt8)) (flags : Nat) (name : Option (List UInt8)) :
    Except (List UInt8) Int :=
  match arg with
  | none | some [] => .error (gnFail fname "null or empty string" arg name)
  | some text =>
    let r := strtol text (base_of flags)
    if r.range then .error (gnFail fname "strtol() failed" arg name)
    else if r.rest ≠ [] then .error (gnFail fname "nonnumeric characters" arg name)
    else if has flags GN_NONNEG ∧ r.value < 0 then .error (gnFail fname "negative value not allowed" arg name)
    else if has flags GN_GT_0 ∧ r.value ≤ 0 then .error (gnFail fname "value must be > 0" arg name)
    else .ok r.value

def getLong (arg : Option (List UInt8)) (flags : Nat) (name : Option (List UInt8)) : Except (List UInt8) Int :=
  getNum "getLong" arg flags name

def getInt (arg : Option (List UInt8)) (flags : Nat) (name : Option (List UInt8)) : Except (List UInt8) Int := do
  let res ← getNum "getInt" arg flags name
  if res > INT_MAX ∨ res < INT_MIN then .error (gnFail "getInt" "integer out of range" arg name) else .ok res

/-- The first thing that is wrong with a number, if there is any. -/
def objection (flags : Nat) (v : Int) : Option String :=
  if v < LONG_MIN ∨ LONG_MAX < v then some "strtol() failed"
  else if has flags GN_NONNEG ∧ v < 0 then some "negative value not allowed"
  else if has flags GN_GT_0 ∧ v ≤ 0 then some "value must be > 0"
  else none

section GetNum

variable {fname : String} {text : List UInt8} {flags : Nat} {name : Option (List UInt8)} {v : Int}

theorem base_of_le (flags : Nat) : base_of flags ≤ 36 := by
  unfold base_of
  split
  · decide
  · split
    · decide
    · split <;> decide

theorem not_denotes_nil {base : Nat} : ¬ Denotes base [] v := by
  intro h
  cases h with
  | unsigned _ hbody htext =>
    obtain ⟨-, rfl⟩ := List.append_eq_nil_iff.mp htext.symm
    obtain ⟨b, digits, hstrip, hne, -⟩ := hbody.strip
    unfold strip_base at hstrip
    cases hstrip
    exact hne rfl
  | plus _ _ htext => simp at htext
  | minus _ _ htext => simp at htext

theorem getNum_denotes (h : Denotes (base_of flags) text v) :
    getNum fname (some text) flags name =
      match objection flags v with
      | some msg => .error (gnFail fname msg (some text) name)
      | none => .ok v := by
  cases text with
  | nil => exact absurd h not_denotes_nil
  | cons c rest =>
    simp only [getNum, h.strtol (base_of_le flags), objection]
    by_cases hrange : v < LONG_MIN ∨ LONG_MAX < v
    · simp only [hrange, decide_true, if_true]
    · have hv : max LONG_MIN (min v LONG_MAX) = v := by omega
      simp only [hrange, decide_false, if_false, hv, ne_eq, not_true, Bool.false_eq_true]
      by_cases hneg : has flags GN_NONNEG = true ∧ v < 0
      · simp only [if_pos hneg]
      · by_cases hpos : has flags GN_GT_0 = true ∧ v ≤ 0
        · simp only [if_neg hneg, if_pos hpos]
        · simp only [if_neg hneg, if_neg hpos]

/-- The messages for a text that is no number. -/
def no_number : List String := ["null or empty string", "strtol() failed", "nonnumeric characters"]

theorem getNum_not_denotes (h : ∀ v, ¬ Denotes (base_of flags) text v) :
    ∃ msg ∈ no_number, getNum fname (some text) flags name = .error (gnFail fname msg (some text) name) := by
  cases text with
  | nil => exact ⟨"null or empty string", by simp [no_number], rfl⟩
  | cons c rest =>
    have hrest : (strtol (c :: rest) (base_of flags)).rest ≠ [] := fun hnil =>
      (denotes_of_strtol (List.cons_ne_nil c rest) hnil).elim h
    by_cases hrange : (strtol (c :: rest) (base_of flags)).range = true
    · refine ⟨"strtol() failed", by simp [no_number], ?_⟩
      simp only [getNum, if_pos hrange]
    · refine ⟨"nonnumeric characters", by simp [no_number], ?_⟩
      simp only [getNum, if_neg hrange, if_pos hrest]

/-- What `getInt` finds wrong, which is first what `getNum` finds wrong. -/
def int_objection (flags : Nat) (v : Int) : Option String :=
  match objection flags v with
  | some msg => some msg
  | none => if v > INT_MAX ∨ v < INT_MIN then some "integer out of range" else none

/-- `getInt` returns the number that its argument is written to be, in the base and the range
    that are asked for, and every other argument ends the program with a message that says what is
    wrong with it and quotes it. -/
theorem getInt_spec (text : List UInt8) (flags : Nat) (name : Option (List UInt8)) :
    (∀ v, Denotes (base_of flags) text v →
      getInt (some text) flags name =
        match int_objection flags v with
        | some msg => .error (gnFail "getInt" msg (some text) name)
        | none => .ok v) ∧
    ((∀ v, ¬ Denotes (base_of flags) text v) →
      ∃ msg ∈ no_number, getInt (some text) flags name = .error (gnFail "getInt" msg (some text) name)) := by
  refine ⟨?_, ?_⟩
  · intro v hv
    rw [getInt, getNum_denotes hv, int_objection]
    cases hobjection : objection flags v with
    | some msg => rfl
    | none =>
      by_cases hrange : v > INT_MAX ∨ v < INT_MIN
      · simp only [if_pos hrange]
        exact if_pos hrange
      · simp only [if_neg hrange]
        exact if_neg hrange
  · intro hnone
    obtain ⟨msg, hmsg, hnum⟩ := getNum_not_denotes hnone
    exact ⟨msg, hmsg, by rw [getInt, hnum]; rfl⟩

theorem getInt_spec_hex : getInt (some (ascii "0x1f")) (GN_ANY_BASE ||| GN_GT_0) none = .ok 31 :=
  (getInt_spec (ascii "0x1f") (GN_ANY_BASE ||| GN_GT_0) none).1 31 (denotes_signed (numeral_hex (.inl rfl)) 31)

/-- Every way to write down a `long` is read back by the flags for it: with its sign, in decimal,
    in octal, and in hexadecimal with or without `0x`, and with `GN_ANY_BASE` in all of them where
    octal numbers begin with `0` and hexadecimal ones with `0x`. -/
theorem getLong_printed (v : Int) (name : Option (List UInt8)) (hmin : LONG_MIN ≤ v) (hmax : v ≤ LONG_MAX) :
    getLong (some (signed v (numeral 10))) 0 name = .ok v ∧
    getLong (some (signed v (numeral 8))) GN_BASE_8 name = .ok v ∧
    getLong (some (signed v (numeral 16))) GN_BASE_16 name = .ok v ∧
    getLong (some (signed v fun n => 48 :: 120 :: numeral 16 n)) GN_BASE_16 name = .ok v ∧
    getLong (some (signed v (numeral 10))) GN_ANY_BASE name = .ok v ∧
    getLong (some (signed v fun n => 48 :: numeral 8 n)) GN_ANY_BASE name = .ok v ∧
    getLong (some (signed v fun n => 48 :: 120 :: numeral 16 n)) GN_ANY_BASE name = .ok v := by
  have hread : ∀ (body : Nat → List UInt8) (flags : Nat), (∀ n, Numeral (base_of flags) (body n) n) →
      has flags GN_NONNEG = false → has flags GN_GT_0 = false →
      getLong (some (signed v body)) flags name = .ok v := by
    intro body flags hbody hnonneg hpos
    have hnone : objection flags v = none := by
      have hrange : ¬ (v < LONG_MIN ∨ LONG_MAX < v) := by omega
      rw [objection, if_neg hrange, hnonneg, hpos]
      rfl
    rw [getLong, getNum_denotes (denotes_signed hbody v), hnone]
  refine ⟨?_, ?_, ?_, ?_, ?_, ?_, ?_⟩
  · exact hread _ _ (numeral_numeral (by decide) (by decide)) rfl rfl
  · exact hread _ _ (numeral_numeral (by decide) (by decide)) rfl rfl
  · exact hread _ _ (numeral_numeral (by decide) (by decide)) rfl rfl
  · exact hread _ _ (numeral_hex (.inr rfl)) rfl rfl
  · exact hread _ _ numeral_decimal_any rfl rfl
  · exact hread _ _ numeral_octal_any rfl rfl
  · exact hread _ _ (numeral_hex (.inl rfl)) rfl rfl

theorem getLong_printed_min : getLong (some (signed LONG_MIN (numeral 10))) 0 none = .ok LONG_MIN :=
  (getLong_printed LONG_MIN none (by decide) (by decide)).1

end GetNum

end tlpi.get_num
