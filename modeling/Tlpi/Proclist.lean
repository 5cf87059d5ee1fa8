import Tlpi.Getpwnam
import Tlpi.Proctree.Status

namespace tlpi.proclist

open getpwnam (Passwd)
open procfs

/-- What the program is called with: what `getopt` returns first, the argument behind the
    options, the real user id of the process, the password database, and `/proc`, if it can be
    opened. -/
structure Call where
  opt : Option Char
  username : Option String
  getuid : Nat
  passwd : List Passwd
  proc : Option (List DirEntry)

inductive Ending where
  | exit (stdout : List (List UInt8))
  | usage (status : Int)
  | fatal (username : String)
  | errExit

/-- One iteration of the loop over the lines of a status file, on the name that was read last and
    the names that have been printed. -/
def list_line (ruid : Nat) (s : Option (List UInt8) × List (List UInt8)) (line : List UInt8) :
    Exec (Option (List UInt8) × List (List UInt8)) :=
  if begins line name_key 5 then do
    let proc_name ← sscanf_name line s.1
    return (proc_name, s.2)
  else if begins line uid_key 4 then
    match (scan_key line uid_key).bind scan_uint with
    | none => .error .uninitialized
    | some proc_ruid =>
      if ruid = proc_ruid then
        match s.1 with
        | none => .error .uninitialized
        | some proc_name => .ok (s.1, s.2 ++ [proc_name])
      else .ok s
  else .ok s

/-- The loop over the entries of `/proc`, on the names that have been printed. -/
def list_procs (ruid : Nat) : List (List UInt8) → List DirEntry → Exec (List (List UInt8))
  | stdout, [] => .ok stdout
  | stdout, dir :: rest =>
    if is_digit (dir.d_name.headD 0) = false then list_procs ruid stdout rest
    else
      match dir.status with
      | none => list_procs ruid stdout rest
      | some text => do
        let s ← (lines text).foldlM (list_line ruid) (none, stdout)
        list_procs ruid s.2 rest

/-- `main`. -/
def main (call : Call) : Exec Ending :=
  match call.opt with
  | some 'h' => .ok (.usage 0)
  | some _ => .ok (.usage 1)
  | none =>
    let ruid : Except Ending Nat :=
      match call.username with
      | none => .ok call.getuid
      | some username =>
        match call.passwd.find? fun entry => entry.pw_name = username with
        | none => .error (.fatal username)
        | some user_info => .ok user_info.pw_uid
    match ruid with
    | .error ending => .ok ending
    | .ok ruid =>
      match call.proc with
      | none => .ok .errExit
      | some dirs => do
        let stdout ← list_procs ruid [] dirs
        return .exit stdout

/-- A process: its name as it is shown, and its real user id. -/
structure Proc where
  name : List UInt8
  uid : Nat

/-- The status file of a process, with the line of the name above the only one of the user ids. -/
structure Describes (fields : List Field) (a : Proc) : Prop where
  ok : ∀ f ∈ fields, f.Ok
  named : ∃ above rest below, fields = above ++ .uid a.uid rest :: below ∧
    (∃ value, .name value ∈ above) ∧ (∀ value, .name value ∈ above → Field.shown value = a.name) ∧
    ∀ uid rest, .uid uid rest ∉ above ++ below

/-- The entries of `/proc`: processes, processes that have gone since, before their status files
    were opened or before they were read, and names that are no pids. -/
inductive Lists : List DirEntry → List Proc → Prop
  | nil : Lists [] []
  | skip {dir : DirEntry} {rest : List DirEntry} {procs : List Proc}
    (hdir : is_digit (dir.d_name.headD 0) = false ∨ dir.status = none ∨ dir.status = some [])
    (hrest : Lists rest procs) : Lists (dir :: rest) procs
  | process {dir : DirEntry} {rest : List DirEntry} {procs : List Proc} {fields : List Field} {a : Proc}
    (hdigit : is_digit (dir.d_name.headD 0) = true) (hstatus : dir.status = some (status_text fields))
    (hfields : Describes fields a) (hrest : Lists rest procs) : Lists (dir :: rest) (a :: procs)

/-- What a line does to the name and the output. -/
def apply (ruid : Nat) (s : Option (List UInt8) × List (List UInt8)) :
    Field → Option (List UInt8) × List (List UInt8)
  | .name value => (Field.stored value s.1, s.2)
  | .uid uid _ => (s.1, if ruid = uid then s.2 ++ s.1.toList else s.2)
  | _ => s

section Lines

variable {ruid : Nat} {s : Option (List UInt8) × List (List UInt8)}

end Lines

end tlpi.proclist
