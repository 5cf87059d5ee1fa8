import Tlpi.Lib.Exec
import Tlpi.Lib.Text
import Tlpi.Machine

namespace tlpi

/-- The error number of a call that a signal has interrupted. -/
def EINTR : Errno := .other 4

/-- What a call of `read` meets: no more than so many bytes that have come in, or an error. -/
inductive Arrival where
  | bytes (most : Nat)
  | error (errno : Errno)
deriving DecidableEq

/-- A descriptor to read from: the bytes that come up to the end of file, and what the next
    calls meet. Later calls get all that they ask for. -/
structure Stream where
  left : List UInt8
  arrivals : List Arrival
deriving DecidableEq

namespace Stream

/-- `read(fd, buf, requested)`. At least one byte comes before the end of file. -/
def read (fd : Stream) (requested : Nat) : Stream × Except Errno (List UInt8) :=
  match fd.arrivals with
  | .error errno :: rest => ({ fd with arrivals := rest }, .error errno)
  | .bytes most :: rest =>
    (⟨fd.left.drop (min requested (max most 1)), rest⟩, .ok (fd.left.take (min requested (max most 1))))
  | [] => (⟨fd.left.drop requested, []⟩, .ok (fd.left.take requested))

/-- A bound on the number of calls up to the end of file. -/
def calls_left (fd : Stream) : Nat := fd.left.length + fd.arrivals.length

/-- The only errors are interrupted calls. -/
def Interruptible (fd : Stream) : Prop := ∀ errno, .error errno ∈ fd.arrivals → errno = EINTR

/-- No call fails. -/
def Reliable (fd : Stream) : Prop := ∀ errno, .error errno ∉ fd.arrivals

/-- These bytes are left, and fewer calls than the fuel allows bring them. -/
def Gives (fd : Stream) (fuel : Nat) (left : List UInt8) : Prop :=
  fd.left = left ∧ fd.Interruptible ∧ fd.calls_left < fuel

variable {fd : Stream}

/-- An error, or the next bytes, of which there are some as long as there are any. -/
theorem read_cases (fd : Stream) {requested : Nat} (hpos : 0 < requested) :
    (∃ errno rest, fd.arrivals = .error errno :: rest ∧
      fd.read requested = ({ fd with arrivals := rest }, .error errno)) ∨
    ∃ bytes left rest, fd.left = bytes ++ left ∧ bytes.length ≤ requested ∧ (bytes = [] → fd.left = []) ∧
      rest <:+ fd.arrivals ∧ fd.read requested = (⟨left, rest⟩, .ok bytes) := by
  have htake : ∀ n, 0 < n → fd.left.take n = [] → fd.left = [] := fun n hn h =>
    (List.take_eq_nil_iff.mp h).resolve_left (by omega)
  unfold read
  cases harrivals : fd.arrivals with
  | nil =>
    exact .inr ⟨fd.left.take requested, _, [], (List.take_append_drop _ _).symm, List.length_take_le _ _,
      htake _ hpos, List.suffix_refl _, rfl⟩
  | cons arrival rest =>
    cases arrival with
    | error errno => exact .inl ⟨errno, rest, rfl, rfl⟩
    | bytes most =>
      have hle : (fd.left.take (min requested (max most 1))).length ≤ requested := by
        rw [List.length_take]
        omega
      exact .inr ⟨_, _, rest, (List.take_append_drop _ _).symm, hle, htake _ (by omega), List.suffix_cons _ _, rfl⟩

variable {rest : List Arrival}

theorem Interruptible.suffix (hfd : fd.Interruptible) (hrest : rest <:+ fd.arrivals) (left : List UInt8) :
    (⟨left, rest⟩ : Stream).Interruptible := fun errno herrno => hfd errno (hrest.subset herrno)

/-- An interrupted call takes nothing off the descriptor. -/
theorem Interruptible.interrupted {errno : Errno} (hfd : fd.Interruptible)
    (harrivals : fd.arrivals = .error errno :: rest) :
    errno = EINTR ∧ ({ fd with arrivals := rest } : Stream).Interruptible ∧
      fd.calls_left = { fd with arrivals := rest }.calls_left + 1 := by
  refine ⟨hfd errno (by rw [harrivals]; exact List.mem_cons_self), ?_, ?_⟩
  · exact hfd.suffix (by rw [harrivals]; exact List.suffix_cons _ _) fd.left
  · rw [calls_left, calls_left, harrivals, List.length_cons, Nat.add_assoc]

end Stream

/-- The first line of a text, with its newline, and what comes after it. -/
def next_line : List UInt8 → List UInt8 × List UInt8
  | [] => ([], [])
  | c :: rest => if c = 10 then ([c], rest) else (c :: (next_line rest).1, (next_line rest).2)

theorem next_line_append (text : List UInt8) : (next_line text).1 ++ (next_line text).2 = text := by
  induction text with
  | nil => rfl
  | cons c rest ih =>
    rw [next_line]
    split
    · rfl
    · rw [List.cons_append, ih]

theorem lines_next_line {text : List UInt8} (h : text ≠ []) :
    lines text = (next_line text).1 :: lines (next_line text).2 := by
  induction text with
  | nil => exact absurd rfl h
  | cons c rest ih =>
    rw [lines, next_line]
    split
    · rfl
    · cases rest with
      | nil => rfl
      | cons d rest => rw [ih (List.cons_ne_nil _ _)]

end tlpi
