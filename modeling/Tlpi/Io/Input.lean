import Tlpi.Io.File
import Tlpi.Io.Writep

namespace tlpi

/-- The size of the buffer that `cp` and `tee` read into. -/
def IO_BUFF_SIZE : Nat := 8192

/-- What the `read` calls on a descriptor deliver: one chunk a call, and then the end of
    file, or an error, at every further call. -/
structure Input where
  chunks : List (List UInt8)
  fails : Bool
deriving DecidableEq

/-- What one `read` gives back: the number it returns, how many bytes it has stored in the
    buffer, and what the buffer holds then. -/
structure ReadReply where
  input : Input
  buff : List UInt8
  stored : Nat
  nr_bytes : Int

namespace Input

/-- `read(fd, buff, sizeof(buff))`. -/
def read (input : Input) (buff : List UInt8) : ReadReply :=
  match input.chunks with
  | chunk :: rest => ⟨{ input with chunks := rest }, chunk ++ buff.drop chunk.length, chunk.length, chunk.length⟩
  | [] => ⟨input, buff, 0, if input.fails then -1 else 0⟩

/-- Each chunk has at least one byte and not more than the buffer holds. -/
def Fits (input : Input) : Prop :=
  ∀ chunk ∈ input.chunks, 1 ≤ chunk.length ∧ chunk.length ≤ IO_BUFF_SIZE

instance (input : Input) : Decidable input.Fits :=
  inferInstanceAs (Decidable (∀ chunk ∈ input.chunks, _ ∧ _))

/-- All bytes that are delivered before the end of file or the error. -/
def content (input : Input) : List UInt8 := input.chunks.flatten

end Input

/-- `writep(fd, buff, nr_bytes)` out of the buffer that was read into. A count that goes past
    the buffer makes `write` read outside of the array. -/
def write_buff {D : Type} (write : D → List UInt8 → D × Int) (fuel : Nat) (file : D) (buff : List UInt8)
    (nr_bytes : Int) : Exec (D × Int) :=
  if to_size nr_bytes ≤ buff.length then mylib.writep write fuel file buff (to_size nr_bytes)
  else .error .outOfBounds

/-- What a `read` has stored at the beginning of the buffer is what `writep` sends. -/
theorem write_buff_chunk {D : Type} {write : D → List UInt8 → D × Int} {file next : D}
    {chunk : List UInt8} (fuel : Nat) (rest : List UInt8) (hchunk : chunk.length < 2 ^ 63)
    (hpos : 1 ≤ chunk.length) (hwrite : write file chunk = (next, (chunk.length : Int))) :
    write_buff write (fuel + 2) file (chunk ++ rest) chunk.length = .ok (next, (chunk.length : Int)) := by
  have hcount : to_size (chunk.length : Int) = chunk.length := to_size_natCast (by omega)
  have hfits : chunk.length ≤ (chunk ++ rest).length := by simp
  rw [write_buff, hcount, if_pos hfits]
  apply mylib.writep_count fuel hchunk (fun hzero => absurd hzero (by omega))
  intro _
  rw [List.take_left, hwrite]

end tlpi
