import Mathlib.Algebra.Group.Int.Defs
import Mathlib.Algebra.Group.Nat.Defs
import Mathlib.Data.Nat.Basic

namespace tlpi

/-- The error numbers that the exercises set or compare. -/
inductive Errno where
  | EBADF
  | EEXIST
  | EINVAL
  | EMFILE
  | ENOMEM
  | EPERM
  | other (number : Nat)
deriving DecidableEq, Repr

/-- The status with which `errExit` and `usageErr` end a program. -/
def EXIT_FAILURE : Int := 1

/-- Addition of two `size_t` values, or of an offset to a `char *`. -/
def size_add (a b : Nat) : Nat := (a + b) % 2 ^ 64

/-- Subtraction of two `size_t` values, or of an offset from a `char *`. -/
def size_sub (a b : Nat) : Nat := (a + (2 ^ 64 - b % 2 ^ 64)) % 2 ^ 64

/-- The signed 64-bit value that a `size_t` becomes when it is passed as an `intptr_t`. -/
def to_signed (a : Nat) : Int := if a < 2 ^ 63 then a else (a : Int) - 2 ^ 64

/-- The `size_t` that an `ssize_t` becomes when it is passed as a count. -/
def to_size (a : Int) : Nat := (a % 2 ^ 64).toNat

def INT_MAX : Int := 2 ^ 31 - 1

def INT_MIN : Int := -2 ^ 31

/-- The sum of two `int` variables. -/
def int_add (a b : Int) : Int := (a + b).bmod (2 ^ 32)

theorem size_add_eq {a b : Nat} (h : a + b < 2 ^ 64) : size_add a b = a + b :=
  Nat.mod_eq_of_lt h

theorem size_sub_eq {a b : Nat} (hle : b ≤ a) (ha : a < 2 ^ 64) : size_sub a b = a - b := by
  unfold size_sub
  omega

theorem to_signed_eq {a : Nat} (h : a < 2 ^ 63) : to_signed a = a := if_pos h

theorem to_size_natCast {a : Nat} (h : a < 2 ^ 64) : to_size a = a := by
  unfold to_size
  omega

theorem int_add_eq {a b : Int} (hmin : INT_MIN ≤ a + b) (hmax : a + b ≤ INT_MAX) : int_add a b = a + b := by
  simp only [INT_MIN, INT_MAX] at hmin hmax
  exact Int.bmod_eq_of_le (by omega) (by omega)

end tlpi
