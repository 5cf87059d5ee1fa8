import Tlpi.Lib.Text

namespace tlpi

/-- The bytes of a text that is written in ASCII. -/
def ascii (text : String) : List UInt8 := text.toList.map fun c => UInt8.ofNat c.toNat

def LONG_MAX : Int := 2 ^ 63 - 1

def LONG_MIN : Int := -2 ^ 63

/-- What `strtol` gives back: the number, whether `errno` is set to `ERANGE`, and the text at
    `endptr`. -/
structure Strtol where
  value : Int
  range : Bool
  rest : List UInt8
deriving DecidableEq

def strip_sign : List UInt8 → Bool × List UInt8
  | 45 :: body => (true, body)
  | 43 :: body => (false, body)
  | body => (false, body)

/-- The base of the digits and where they begin: behind `0x` in base 16, if a digit comes there,
    and in base 0 what the beginning says. -/
def strip_base (base : Nat) (body : List UInt8) : Nat × List UInt8 :=
  match body with
  | 48 :: x :: c :: rest =>
    if (base = 0 ∨ base = 16) ∧ (x = 120 ∨ x = 88) ∧ is_base_digit 16 c = true then (16, c :: rest)
    else (if base = 0 then 8 else base, body)
  | 48 :: _ => (if base = 0 then 8 else base, body)
  | _ => (if base = 0 then 10 else base, body)

/-- `strtol(text, &endptr, base)`. -/
def strtol (text : List UInt8) (base : Nat) : Strtol :=
  let signed := strip_sign (text.dropWhile is_space)
  let based := strip_base base signed.2
  let digits := based.2.takeWhile (is_base_digit based.1)
  if digits = [] then ⟨0, false, text⟩
  else
    let value : Int := if signed.1 then -base_value based.1 digits else base_value based.1 digits
    ⟨max LONG_MIN (min value LONG_MAX), decide (value < LONG_MIN ∨ LONG_MAX < value),
      based.2.dropWhile (is_base_digit based.1)⟩

example : strtol (ascii " -0x1fz") 0 = ⟨-31, false, ascii "z"⟩ := by decide

/-- The digits of a number in a base, as `strtol` wants them: with or without `0x` in base 16,
    and in base 0 with what tells the base. -/
inductive Numeral : Nat → List UInt8 → Nat → Prop
  | digits {base : Nat} {digits : List UInt8} (hbase : base ≠ 0) (hne : digits ≠ [])
    (hdigits : ∀ c ∈ digits, is_base_digit base c = true) : Numeral base digits (base_value base digits)
  | hex {base : Nat} {x : UInt8} {digits : List UInt8} (hbase : base = 0 ∨ base = 16) (hx : x = 120 ∨ x = 88)
    (hne : digits ≠ []) (hdigits : ∀ c ∈ digits, is_base_digit 16 c = true) :
    Numeral base (48 :: x :: digits) (base_value 16 digits)
  | octal {digits : List UInt8} (hdigits : ∀ c ∈ digits, is_base_digit 8 c = true) :
    Numeral 0 (48 :: digits) (base_value 8 (48 :: digits))
  | decimal {c : UInt8} {digits : List UInt8} (hc : c ≠ 48) (hdigits : ∀ d ∈ c :: digits, is_base_digit 10 d = true) :
    Numeral 0 (c :: digits) (base_value 10 (c :: digits))

/-- The whole text is a number, with blanks before it and a sign. -/
inductive Denotes (base : Nat) (text : List UInt8) : Int → Prop
  | unsigned {spaces body : List UInt8} {n : Nat} (hspaces : ∀ c ∈ spaces, is_space c = true)
    (hbody : Numeral base body n) (htext : text = spaces ++ body) : Denotes base text n
  | plus {spaces body : List UInt8} {n : Nat} (hspaces : ∀ c ∈ spaces, is_space c = true)
    (hbody : Numeral base body n) (htext : text = spaces ++ 43 :: body) : Denotes base text n
  | minus {spaces body : List UInt8} {n : Nat} (hspaces : ∀ c ∈ spaces, is_space c = true)
    (hbody : Numeral base body n) (htext : text = spaces ++ 45 :: body) : Denotes base text (-n)

section Numeral

variable {base n : Nat} {body : List UInt8}

theorem strip_base_of_base {base : Nat} (hbase : base ≠ 0) {body : List UInt8}
    (hx : ∀ x rest, body = 48 :: x :: rest → base = 16 → x ≠ 120 ∧ x ≠ 88) : strip_base base body = (base, body) := by
  unfold strip_base
  split
  · rename_i x c rest
    rw [if_neg, if_neg hbase]
    rintro ⟨hbase', hx', -⟩
    have := hx x (c :: rest) rfl (hbase'.resolve_left hbase)
    tauto
  · rw [if_neg hbase]
  · rw [if_neg hbase]

/-- What is left of a numeral are its digits. -/
theorem Numeral.strip (h : Numeral base body n) :
    ∃ b digits, strip_base base body = (b, digits) ∧ digits ≠ [] ∧ (∀ c ∈ digits, is_base_digit b c = true) ∧
      n = base_value b digits := by
  cases h with
  | digits hbase hne hdigits =>
    refine ⟨base, body, strip_base_of_base hbase ?_, hne, hdigits, rfl⟩
    rintro x rest rfl rfl
    have hx := hdigits x (by simp)
    constructor
    · rintro rfl
      exact absurd hx (by decide)
    · rintro rfl
      exact absurd hx (by decide)
  | @hex _ x digits hbase hx hne hdigits =>
    obtain ⟨c, rest, rfl⟩ := List.exists_cons_of_ne_nil hne
    refine ⟨16, c :: rest, ?_, hne, hdigits, rfl⟩
    rw [strip_base, if_pos ⟨hbase, hx, hdigits c List.mem_cons_self⟩]
  | @octal digits hdigits =>
    refine ⟨8, 48 :: digits, ?_, List.cons_ne_nil _ _, ?_, rfl⟩
    · unfold strip_base
      split
      · rename_i x c rest heq
        cases heq
        rw [if_neg, if_pos rfl]
        rintro ⟨-, rfl | rfl, -⟩
        · exact absurd (hdigits 120 (by simp)) (by decide)
        · exact absurd (hdigits 88 (by simp)) (by decide)
      · rw [if_pos rfl]
      · rename_i hnot
        exact absurd rfl (hnot digits)
    · intro c hc
      rcases List.mem_cons.mp hc with rfl | hc
      · decide
      · exact hdigits c hc
  | @decimal c digits hc hdigits =>
    refine ⟨10, c :: digits, ?_, List.cons_ne_nil _ _, hdigits, rfl⟩
    unfold strip_base
    split
    · rename_i heq
      cases heq
      exact absurd rfl hc
    · rename_i heq
      cases heq
      exact absurd rfl hc
    · rw [if_pos rfl]

theorem Numeral.of_strip {b : Nat} {digits : List UInt8} (h : strip_base base body = (b, digits)) (hne : digits ≠ [])
    (hdigits : ∀ c ∈ digits, is_base_digit b c = true) : Numeral base body (base_value b digits) := by
  unfold strip_base at h
  split at h
  · rename_i x c rest
    split at h
    · rename_i hcond
      cases h
      exact .hex hcond.1 hcond.2.1 hne hdigits
    · cases h
      by_cases hbase : base = 0
      · subst hbase
        exact .octal fun d hd => hdigits d (List.mem_cons_of_mem _ hd)
      · rw [if_neg hbase] at hdigits ⊢
        exact .digits hbase hne hdigits
  · cases h
    by_cases hbase : base = 0
    · subst hbase
      exact .octal fun d hd => hdigits d (List.mem_cons_of_mem _ hd)
    · rw [if_neg hbase] at hdigits ⊢
      exact .digits hbase hne hdigits
  · rename_i hnot
    cases h
    by_cases hbase : base = 0
    · subst hbase
      obtain ⟨c, rest, rfl⟩ := List.exists_cons_of_ne_nil hne
      exact .decimal (fun hc => hnot rest (hc ▸ rfl)) hdigits
    · rw [if_neg hbase] at hdigits ⊢
      exact .digits hbase hne hdigits

/-- A numeral begins with neither a blank nor a sign. -/
theorem Numeral.head (h : Numeral base body n) (hbase : base ≤ 36) :
    ∃ c rest, body = c :: rest ∧ digit_value c < 36 := by
  cases h with
  | digits _ hne hdigits =>
    obtain ⟨c, rest, rfl⟩ := List.exists_cons_of_ne_nil hne
    have hc := of_decide_eq_true (hdigits c List.mem_cons_self)
    exact ⟨c, rest, rfl, by omega⟩
  | hex => exact ⟨48, _, rfl, by decide⟩
  | octal => exact ⟨48, _, rfl, by decide⟩
  | decimal _ hdigits =>
    have hc := of_decide_eq_true (hdigits _ List.mem_cons_self)
    exact ⟨_, _, rfl, by omega⟩

theorem strip_sign_digit {c : UInt8} {rest : List UInt8} (hplus : c ≠ 43) (hminus : c ≠ 45) :
    strip_sign (c :: rest) = (false, c :: rest) := by
  unfold strip_sign
  split
  · rename_i heq
    cases heq
    exact absurd rfl hminus
  · rename_i heq
    cases heq
    exact absurd rfl hplus
  · rfl

theorem dropWhile_spaces {spaces rest : List UInt8} {c : UInt8} (hspaces : ∀ c ∈ spaces, is_space c = true)
    (hc : is_space c = false) : (spaces ++ c :: rest).dropWhile is_space = c :: rest := by
  rw [List.dropWhile_append_of_pos hspaces, List.dropWhile_cons_of_neg (by simp [hc])]

/-- `strtol` on a text of which only the digits are known. -/
theorem strtol_eq {text : List UInt8} {negative : Bool} {v : Int}
    (hsign : strip_sign (text.dropWhile is_space) = (negative, body)) (hbody : Numeral base body n)
    (hv : v = if negative then -(n : Int) else n) :
    strtol text base = ⟨max LONG_MIN (min v LONG_MAX), decide (v < LONG_MIN ∨ LONG_MAX < v), []⟩ := by
  obtain ⟨b, digits, hstrip, hne, hdigits, rfl⟩ := hbody.strip
  have htake : digits.takeWhile (is_base_digit b) = digits := List.takeWhile_eq_self_iff.mpr hdigits
  have hdrop : digits.dropWhile (is_base_digit b) = [] := List.dropWhile_eq_nil_iff.mpr hdigits
  simp only [strtol, hsign, hstrip, htake, hdrop, if_neg hne, hv]

/-- `strtol` reads every number to its end. -/
theorem Denotes.strtol {text : List UInt8} {v : Int} (h : Denotes base text v) (hbase : base ≤ 36) :
    strtol text base = ⟨max LONG_MIN (min v LONG_MAX), decide (v < LONG_MIN ∨ LONG_MAX < v), []⟩ := by
  cases h with
  | unsigned hspaces hbody htext =>
    obtain ⟨c, rest, rfl, hc⟩ := hbody.head hbase
    obtain ⟨hspace, hplus, hminus⟩ := is_space_of_digit hc
    exact strtol_eq (by rw [htext, dropWhile_spaces hspaces hspace, strip_sign_digit hplus hminus]) hbody rfl
  | plus hspaces hbody htext =>
    exact strtol_eq (by rw [htext, dropWhile_spaces hspaces (by decide)]; rfl) hbody rfl
  | minus hspaces hbody htext =>
    exact strtol_eq (by rw [htext, dropWhile_spaces hspaces (by decide)]; rfl) hbody rfl

/-- A text that is read to its end is a number. -/
theorem denotes_of_strtol {text : List UInt8} (hne : text ≠ []) (hrest : (strtol text base).rest = []) :
    ∃ v, Denotes base text v := by
  simp only [tlpi.strtol] at hrest
  split at hrest
  · exact absurd hrest hne
  · rename_i hdigits
    generalize hbody : strip_sign (text.dropWhile is_space) = signed at hrest hdigits
    obtain ⟨negative, body⟩ := signed
    generalize hstrip : strip_base base body = based at hrest hdigits
    obtain ⟨b, digits⟩ := based
    have hall : ∀ c ∈ digits, is_base_digit b c = true := List.dropWhile_eq_nil_iff.mp hrest
    have hne' : digits ≠ [] := fun h => hdigits (by rw [h]; rfl)
    have hnumeral : Numeral base body (base_value b digits) := .of_strip hstrip hne' hall
    have htext : text = text.takeWhile is_space ++ text.dropWhile is_space := List.takeWhile_append_dropWhile.symm
    have hspaces : ∀ c ∈ text.takeWhile is_space, is_space c = true := fun c hc => List.mem_takeWhile_imp hc
    unfold strip_sign at hbody
    split at hbody
    · rename_i rest heq
      cases hbody
      exact ⟨_, .minus hspaces hnumeral (heq ▸ htext)⟩
    · rename_i rest heq
      cases hbody
      exact ⟨_, .plus hspaces hnumeral (heq ▸ htext)⟩
    · cases hbody
      exact ⟨_, .unsigned hspaces hnumeral htext⟩

end Numeral

section Printed

variable {base n : Nat}

theorem numeral_numeral (hbase : 2 ≤ base) (hle : base ≤ 36) (n : Nat) : Numeral base (numeral base n) n := by
  have h : Numeral base (numeral base n) (base_value base (numeral base n)) :=
    .digits (by omega) (numeral_ne_nil base n) fun _ => is_base_digit_of_mem_numeral hbase hle
  rwa [base_value_numeral hbase hle] at h

/-- `strtol` stops behind the last digit. -/
theorem strtol_numeral {c : UInt8} (hbase : 2 ≤ base) (hle : base ≤ 36) (hhex : base ≠ 16)
    (hc : is_base_digit base c = false) (rest : List UInt8) (hn : (n : Int) ≤ LONG_MAX) :
    strtol (numeral base n ++ c :: rest) base = ⟨n, false, c :: rest⟩ := by
  have hdigits : ∀ d ∈ numeral base n, is_base_digit base d = true := fun _ => is_base_digit_of_mem_numeral hbase hle
  obtain ⟨d, more, hcons, hspace, hplus, hminus⟩ := numeral_head hbase hle n
  have hsign : strip_sign ((numeral base n ++ c :: rest).dropWhile is_space) =
      (false, numeral base n ++ c :: rest) := by
    rw [hcons, List.cons_append, List.dropWhile_cons_of_neg (by simp [hspace]), strip_sign_digit hplus hminus]
  have hstrip : strip_base base (numeral base n ++ c :: rest) = (base, numeral base n ++ c :: rest) :=
    strip_base_of_base (by omega) fun _ _ _ h => absurd h hhex
  have htake := takeWhile_append_stop (m := rest) hdigits hc
  have hdrop : (numeral base n ++ c :: rest).dropWhile (is_base_digit base) = c :: rest := by
    rw [List.dropWhile_append_of_pos hdigits, List.dropWhile_cons_of_neg (by simp [hc])]
  have hmin : LONG_MIN ≤ 0 := by decide
  simp only [strtol, hsign, hstrip, htake, hdrop, if_neg (numeral_ne_nil base n), base_value_numeral hbase hle]
  simp only [Bool.false_eq_true, if_false, Strtol.mk.injEq, decide_eq_false_iff_not, and_true]
  omega

/-- A decimal number does not begin with a zero, up to 0 itself. -/
theorem numeral_decimal_any (n : Nat) : Numeral 0 (numeral 10 n) n := by
  have hvalue := base_value_numeral (by decide : 2 ≤ 10) (by decide) n
  have hdigits : ∀ c ∈ numeral 10 n, is_base_digit 10 c = true := fun _ =>
    is_base_digit_of_mem_numeral (by decide) (by decide)
  by_cases hn : n = 0
  · subst hn
    exact .octal fun _ hc => absurd hc List.not_mem_nil
  · have hne : Nat.digits 10 n ≠ [] := Nat.digits_ne_nil_iff_ne_zero.mpr hn
    have hlast : (Nat.digits 10 n).getLast hne ≠ 0 := Nat.getLast_digit_ne_zero 10 hn
    have hlt : (Nat.digits 10 n).getLast hne < 10 := Nat.digits_lt_base (by decide) (List.getLast_mem hne)
    have hcons : numeral 10 n = digit_char ((Nat.digits 10 n).getLast hne) ::
        (Nat.digits 10 n).dropLast.reverse.map digit_char := by
      rw [numeral, if_neg hn, ← List.map_cons, ← List.reverse_concat, List.dropLast_append_getLast]
    rw [hcons] at hvalue hdigits ⊢
    have h := Numeral.decimal (digit_char_ne (by omega) hlast) hdigits
    rwa [hvalue] at h

/-- Behind a zero the digits are octal. -/
theorem numeral_octal_any (n : Nat) : Numeral 0 (48 :: numeral 8 n) n := by
  have h : Numeral 0 (48 :: numeral 8 n) (base_value 8 (48 :: numeral 8 n)) :=
    .octal fun _ => is_base_digit_of_mem_numeral (by decide) (by decide)
  have hvalue : base_value 8 (48 :: numeral 8 n) = base_value 8 (numeral 8 n) := rfl
  rwa [hvalue, base_value_numeral (by decide) (by decide)] at h

/-- Behind `0x` they are hexadecimal. -/
theorem numeral_hex {base : Nat} (hbase : base = 0 ∨ base = 16) (n : Nat) :
    Numeral base (48 :: 120 :: numeral 16 n) n := by
  have h : Numeral base (48 :: 120 :: numeral 16 n) (base_value 16 (numeral 16 n)) :=
    .hex hbase (.inl rfl) (numeral_ne_nil 16 n) fun _ => is_base_digit_of_mem_numeral (by decide) (by decide)
  rwa [base_value_numeral (by decide) (by decide)] at h

/-- A number with its sign in front of it. -/
def signed (v : Int) (body : Nat → List UInt8) : List UInt8 :=
  if v < 0 then 45 :: body v.natAbs else body v.natAbs

theorem denotes_signed {base : Nat} {body : Nat → List UInt8} (hbody : ∀ n, Numeral base (body n) n) (v : Int) :
    Denotes base (signed v body) v := by
  have hspaces : ∀ c ∈ ([] : List UInt8), is_space c = true := fun c hc => absurd hc List.not_mem_nil
  unfold signed
  split
  · have h : Denotes base (45 :: body v.natAbs) (-(v.natAbs : Int)) := .minus hspaces (hbody v.natAbs) rfl
    rwa [show -(v.natAbs : Int) = v by omega] at h
  · have h : Denotes base (body v.natAbs) (v.natAbs : Int) := .unsigned hspaces (hbody v.natAbs) rfl
    rwa [show (v.natAbs : Int) = v by omega] at h

end Printed

end tlpi
