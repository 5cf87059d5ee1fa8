import Mathlib.Data.List.Basic
import Tlpi.Machine

namespace tlpi

/-- An open regular file: its content and the offset of the open file description. -/
structure File where
  content : List UInt8
  offset : Nat
deriving DecidableEq

namespace File

/-- A `write` that accepts everything. A gap before the offset reads as zero bytes. -/
def write (file : File) (bytes : List UInt8) : File × Int :=
  if bytes = [] then (file, 0)
  else
    let gap := List.replicate (file.offset - file.content.length) 0
    let content :=
      file.content.take file.offset ++ gap ++ bytes ++ file.content.drop (file.offset + bytes.length)
    ({ content, offset := file.offset + bytes.length }, bytes.length)

/-- A `read` that returns as many of the requested bytes as are left. -/
def read (file : File) (requested : Nat) : File × Option (List UInt8) :=
  let bytes := (file.content.drop file.offset).take requested
  ({ file with offset := file.offset + bytes.length }, some bytes)

/-- `lseek(fd, offset, SEEK_SET)`. -/
def seek (file : File) (offset : Nat) : File := { file with offset }

/-- The bytes between the offset and the end of the file. -/
def left (file : File) : List UInt8 := file.content.drop file.offset

/-- `write` on a descriptor that may have been opened with `O_APPEND`: then the offset is
    first set to the end of the file, in the same step. -/
def write_fd (append : Bool) (file : File) (bytes : List UInt8) : File × Int :=
  if append then (file.seek file.content.length).write bytes else file.write bytes

/-- Writing inside the file replaces as many bytes as are written. -/
theorem write_over (front old bytes : List UInt8) :
    File.write ⟨front ++ old, front.length⟩ bytes =
      (⟨front ++ bytes ++ old.drop bytes.length, front.length + bytes.length⟩, (bytes.length : Int)) := by
  by_cases hbytes : bytes = []
  · simp [write, hbytes]
  · simp [write, hbytes, List.drop_append]

/-- Writing at the end of the file appends. -/
theorem write_at_end {file : File} (hend : file.offset = file.content.length) (bytes : List UInt8) :
    file.write bytes =
      ({ content := file.content ++ bytes, offset := file.content.length + bytes.length },
        (bytes.length : Int)) := by
  cases file with
  | mk content offset =>
    simp only at hend
    subst hend
    simpa using write_over content [] bytes

/-- A descriptor that writes at the end, by its mode or by its offset, appends. -/
theorem write_fd_at_end {file : File} {append : Bool}
    (hend : append = true ∨ file.offset = file.content.length) (bytes : List UInt8) :
    file.write_fd append bytes =
      ({ content := file.content ++ bytes, offset := file.content.length + bytes.length },
        (bytes.length : Int)) := by
  cases append with
  | true => exact write_at_end rfl bytes
  | false => exact write_at_end (hend.resolve_left Bool.false_ne_true) bytes

theorem read_left (file : File) (requested : Nat) :
    (file.read requested).1.left = file.left.drop requested := by
  simp only [read, left, List.length_take, List.length_drop, List.drop_drop]
  by_cases h : requested ≤ file.content.length - file.offset
  · rw [Nat.min_eq_left h]
  · rw [List.drop_eq_nil_of_le (by omega), List.drop_eq_nil_of_le (by omega)]

end File

/-- The flags of `open` beside the access mode. -/
structure OpenFlags where
  O_CREAT : Bool
  O_EXCL : Bool
  O_TRUNC : Bool
  O_APPEND : Bool
deriving DecidableEq

/-- `open` of a path, for writing. What is there, if anything, is the content of a regular
    file that may be written; the result is what is there then and where the new open file
    description stands. Without `O_CREAT` a missing file gives `ENOENT`. -/
def open_path (flags : OpenFlags) (found : Option (List UInt8)) : Except Errno File :=
  match found with
  | none => if flags.O_CREAT then .ok { content := [], offset := 0 } else .error (.other 2)
  | some content =>
    if flags.O_CREAT && flags.O_EXCL then .error .EEXIST
    else .ok { content := if flags.O_TRUNC then [] else content, offset := 0 }

end tlpi
