import Mathlib.Data.List.DropRight
import Mathlib.Data.List.TakeWhile
import Mathlib.Data.Nat.Digits.Lemmas

namespace tlpi

/-- A text cut behind each newline. -/
def lines : List UInt8 → List (List UInt8)
  | [] => []
  | c :: rest =>
    if c = 10 then [c] :: lines rest
    else
      match lines rest with
      | [] => [[c]]
      | line :: more => (c :: line) :: more

/-- `isspace` in the C locale. -/
def is_space (c : UInt8) : Bool := c = 32 || (9 ≤ c && c ≤ 13)

/-- `isdigit`. -/
def is_digit (c : UInt8) : Bool := 48 ≤ c && c ≤ 57

/-- The value of a digit or letter, 36 for everything else. -/
def digit_value (c : UInt8) : Nat :=
  if 48 ≤ c ∧ c ≤ 57 then c.toNat - 48
  else if 97 ≤ c ∧ c ≤ 122 then c.toNat - 87
  else if 65 ≤ c ∧ c ≤ 90 then c.toNat - 55
  else 36

def is_base_digit (base : Nat) (c : UInt8) : Bool := digit_value c < base

/-- The number that digits stand for. -/
def base_value (base : Nat) (digits : List UInt8) : Nat := digits.foldl (fun n c => base * n + digit_value c) 0

/-- The character for a digit, lower case as `%lx` writes it. -/
def digit_char (d : Nat) : UInt8 := UInt8.ofNat (if d < 10 then 48 + d else 87 + d)

/-- A number in a base. -/
def numeral (base n : Nat) : List UInt8 :=
  if n = 0 then [48] else (Nat.digits base n).reverse.map digit_char

section Lines

theorem lines_cons {body : List UInt8} (rest : List UInt8) (h : 10 ∉ body) :
    lines (body ++ 10 :: rest) = (body ++ [10]) :: lines rest := by
  induction body with
  | nil => simp [lines]
  | cons c body ih =>
    have hc : c ≠ 10 := fun hc => h (by simp [hc])
    have hbody : 10 ∉ body := fun hmem => h (by simp [hmem])
    rw [List.cons_append, lines, if_neg hc, ih hbody]
    rfl

/-- Lines that end with their only newline are found again in the text that they make up. -/
theorem lines_flatMap {A : Type} (body : A → List UInt8) (items : List A) (h : ∀ a ∈ items, 10 ∉ body a) :
    lines (items.flatMap fun a => body a ++ [10]) = items.map fun a => body a ++ [10] := by
  induction items with
  | nil => rfl
  | cons a items ih =>
    rw [List.flatMap_cons, List.append_assoc, List.singleton_append, lines_cons _ (h a (by simp)),
      ih fun b hb => h b (by simp [hb]), List.map_cons]

end Lines

section Digits

variable {base n : Nat}

theorem is_space_of_digit {c : UInt8} (h : digit_value c < 36) : is_space c = false ∧ c ≠ 43 ∧ c ≠ 45 := by
  refine ⟨?_, ?_, ?_⟩
  · unfold digit_value at h
    rw [is_space, Bool.or_eq_false_iff, Bool.and_eq_false_iff, decide_eq_false_iff_not, decide_eq_false_iff_not,
      decide_eq_false_iff_not, ← UInt8.toNat_inj, UInt8.le_iff_toNat_le, UInt8.le_iff_toNat_le]
    simp only [UInt8.le_iff_toNat_le] at h
    simp only [UInt8.reduceToNat] at h ⊢
    split at h
    · omega
    · split at h
      · omega
      · split at h <;> omega
  · rintro rfl
    exact absurd h (by decide)
  · rintro rfl
    exact absurd h (by decide)

theorem digit_value_digit_char {d : Nat} (h : d < 36) : digit_value (digit_char d) = d := by
  revert h
  revert d
  decide

theorem digit_char_ne {d : Nat} (h : d < 36) (hd : d ≠ 0) : digit_char d ≠ 48 := by
  revert hd
  revert h
  revert d
  decide

theorem numeral_ne_nil (base n : Nat) : numeral base n ≠ [] := by
  unfold numeral
  split
  · simp
  · next hn => simpa using Nat.digits_ne_nil_iff_ne_zero.mpr hn

theorem is_base_digit_of_mem_numeral (hbase : 2 ≤ base) (hle : base ≤ 36) {c : UInt8} (h : c ∈ numeral base n) :
    is_base_digit base c = true := by
  unfold numeral at h
  split at h
  · obtain rfl := List.mem_singleton.mp h
    rw [is_base_digit, decide_eq_true_iff]
    have hzero : digit_value 48 = 0 := by decide
    omega
  · obtain ⟨d, hd, rfl⟩ := List.mem_map.mp h
    have hlt := Nat.digits_lt_base (by omega) (List.mem_reverse.mp hd)
    rw [is_base_digit, decide_eq_true_iff, digit_value_digit_char (by omega)]
    exact hlt

theorem not_mem_numeral (hbase : 2 ≤ base) (hle : base ≤ 36) {c : UInt8} (hc : is_base_digit base c = false) :
    c ∉ numeral base n := by
  intro hmem
  rw [is_base_digit_of_mem_numeral hbase hle hmem] at hc
  cases hc

/-- A number begins with neither a blank nor a sign. -/
theorem numeral_head (hbase : 2 ≤ base) (hle : base ≤ 36) (n : Nat) :
    ∃ d digits, numeral base n = d :: digits ∧ is_space d = false ∧ d ≠ 43 ∧ d ≠ 45 := by
  obtain ⟨d, digits, hd⟩ := List.exists_cons_of_ne_nil (numeral_ne_nil base n)
  have hmem : d ∈ numeral base n := by
    rw [hd]
    exact List.mem_cons_self
  have hvalue := of_decide_eq_true (is_base_digit_of_mem_numeral hbase hle hmem)
  exact ⟨d, digits, hd, is_space_of_digit (by omega)⟩

theorem length_numeral_le {k : Nat} (hbase : 2 ≤ base) (hk : 0 < k) (hn : n < base ^ k) :
    (numeral base n).length ≤ k := by
  unfold numeral
  split
  · exact hk
  · rw [List.length_map, List.length_reverse]
    exact (Nat.digits_length_le_iff hbase n).mpr hn

/-- A number fits into a line of text. -/
theorem numeral_line (n : Nat) : 0 ∉ numeral 10 n ∧ 10 ∉ numeral 10 n :=
  ⟨not_mem_numeral (by decide) (by decide) (by decide), not_mem_numeral (by decide) (by decide) (by decide)⟩

/-- Reading a number that was written in the same base. -/
theorem base_value_numeral (hbase : 2 ≤ base) (hle : base ≤ 36) (n : Nat) : base_value base (numeral base n) = n := by
  unfold numeral
  split
  · next hn =>
    subst hn
    simp only [base_value, List.foldl_cons, List.foldl_nil, Nat.mul_zero, Nat.zero_add]
    decide
  · have hfold : ∀ l : List Nat, (∀ d ∈ l, d < base) →
        base_value base (l.reverse.map digit_char) = Nat.ofDigits base l := by
      intro l hl
      induction l with
      | nil => rfl
      | cons d l ih =>
        have hd : digit_value (digit_char d) = d := by
          have hlt := hl d List.mem_cons_self
          exact digit_value_digit_char (by omega)
        have ih := ih fun d hd => hl d (List.mem_cons_of_mem _ hd)
        unfold base_value at ih ⊢
        rw [List.reverse_cons, List.map_append, List.foldl_append, ih, Nat.ofDigits_cons]
        simp only [List.map_cons, List.map_nil, List.foldl_cons, List.foldl_nil, hd]
        omega
    rw [hfold _ fun d hd => Nat.digits_lt_base (by omega) hd, Nat.ofDigits_digits]

end Digits

section Tokens

variable {A : Type} {p : A → Bool} {l m : List A}

/-- A token ends at the first element that does not belong to it. -/
theorem takeWhile_append_stop (hl : ∀ a ∈ l, p a = true) {b : A} (hb : p b = false) :
    (l ++ b :: m).takeWhile p = l := by
  rw [List.takeWhile_append_of_pos hl, List.takeWhile_cons_of_neg (by simp [hb]), List.append_nil]

/-- What ends a token does not change it. -/
theorem takeWhile_concat {b : A} (hb : p b = false) : (l ++ [b]).takeWhile p = l.takeWhile p := by
  induction l with
  | nil => simp [hb]
  | cons a l ih => simp [List.takeWhile_cons, ih]

theorem dropWhile_concat {b : A} (h : l.dropWhile p ≠ []) : (l ++ [b]).dropWhile p = l.dropWhile p ++ [b] := by
  induction l with
  | nil => simp at h
  | cons a l ih =>
    rw [List.cons_append, List.dropWhile_cons, List.dropWhile_cons]
    split
    · next ha =>
      rw [List.dropWhile_cons_of_pos ha] at h
      exact ih h
    · rfl

end Tokens

end tlpi
